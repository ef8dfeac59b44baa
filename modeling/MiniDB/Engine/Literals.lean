import MiniDB.Engine.Scans
import MiniDB.Parser.Lexer

/-!
# Integer literals

`executeInsert` and the predicates of `executeSelect` and `executeDelete` read an integer with
`stoi`, which takes the longest numeric beginning after white space and looks at nothing behind it.
So a string is read as an integer not only when it is one from end to end, but also when white space
stands before the integer or something else behind it.

## Main definitions

* `Denotes s v`: the string is, from end to end, a literal of the integer
* `Loose s v`: the string has a literal of the integer with something around it
* `Engine.InsertsWhole`, `Engine.MatchesWhole`: `INSERT` takes whole literals only, and a `WHERE`
  clause compares with whole literals only

## Main results

* `stoi_eq_some_iff`: the strings that `stoi` reads
* `Engine.literals_whole_iff`: when the statements read whole literals only
-/

namespace MiniDB

/-- The string is, from end to end, an optional sign and decimal digits that denote a 32-bit
integer. -/
def Denotes (s : Str) (v : Int32) : Prop :=
  ∃ sign ds, s = sign ++ ds ∧ (sign = [] ∨ sign = [43] ∨ sign = [45]) ∧ ds ≠ [] ∧
    (∀ c ∈ ds, isDigit c = true) ∧
    v.toInt = if sign = [45] then -(digits ds : ℤ) else digits ds

/-- The string is a literal of the integer with white space before it or something behind it, which
does not go on with a digit. -/
def Loose (s : Str) (v : Int32) : Prop :=
  ∃ before literal after, s = before ++ (literal ++ after) ∧ (∀ c ∈ before, isSpace c = true) ∧
    Denotes literal v ∧ Lexer.Stops isDigit after ∧ (before ≠ [] ∨ after ≠ [])

/-! ## What `stoi` reads -/

/-- A digit is neither a sign nor white space. -/
theorem isDigit_bounds {c : UInt8} (h : isDigit c = true) :
    c ≠ 43 ∧ c ≠ 45 ∧ isSpace c = false := by
  simp only [isDigit, isSpace] at *
  refine ⟨?_, ?_, ?_⟩ <;> grind

/-- A literal begins with a sign or a digit, and not with white space. -/
theorem Denotes.head {s : Str} {v : Int32} (h : Denotes s v) :
    ∃ c rest, s = c :: rest ∧ isSpace c = false := by
  obtain ⟨sign, ds, rfl, hsign, hne, hdigits, -⟩ := h
  obtain ⟨d, ds, rfl⟩ := List.exists_cons_of_ne_nil hne
  have hd := hdigits d (List.mem_cons_self ..)
  rcases hsign with rfl | rfl | rfl
  · exact ⟨d, ds, rfl, (isDigit_bounds hd).2.2⟩
  · exact ⟨43, _, rfl, by decide⟩
  · exact ⟨45, _, rfl, by decide⟩

/-- A sign and digits are split where the digits begin. -/
theorem takeSign_append {sign ds : Str} (hsign : sign = [] ∨ sign = [43] ∨ sign = [45])
    (hne : ds ≠ []) (hdigits : ∀ c ∈ ds, isDigit c = true) (after : Str) :
    takeSign (sign ++ (ds ++ after)) = (decide (sign = [45]), ds ++ after) := by
  obtain ⟨d, ds, rfl⟩ := List.exists_cons_of_ne_nil hne
  obtain ⟨hplus, hminus, -⟩ := isDigit_bounds (hdigits d (List.mem_cons_self ..))
  rcases hsign with rfl | rfl | rfl
  · simp [takeSign, hplus, hminus]
  · rfl
  · rfl

/-- An optional sign at the front of a string. -/
theorem takeSign_eq (s : Str) : ∃ sign : Str, (sign = [] ∨ sign = [43] ∨ sign = [45]) ∧
    s = sign ++ (takeSign s).2 ∧ (takeSign s).1 = decide (sign = [45]) := by
  unfold takeSign
  split
  · exact ⟨[45], Or.inr (Or.inr rfl), rfl, rfl⟩
  · exact ⟨[43], Or.inr (Or.inl rfl), rfl, rfl⟩
  · exact ⟨[], Or.inl rfl, rfl, rfl⟩

/-- What `stoi` returns, by the sign and the digits it finds. -/
theorem stoi_of_takeSign {s rest : Str} {negative : Bool} {v : Int32}
    (hsign : takeSign (s.dropWhile isSpace) = (negative, rest)) : stoi s = some v ↔
      rest.takeWhile isDigit ≠ [] ∧ v.toInt = if negative = true
        then -(digits (rest.takeWhile isDigit) : ℤ) else digits (rest.takeWhile isDigit) := by
  simp only [stoi, hsign]
  split
  case isTrue hnone => simp [hnone]
  case isFalse hne =>
    generalize (if negative = true then -(digits (rest.takeWhile isDigit) : ℤ)
      else digits (rest.takeWhile isDigit)) = z
    rw [and_iff_right hne]
    -- The cut to 32 bits keeps exactly the integers of 32 bits.
    constructor
    · intro h
      split at h
      case isTrue hrange =>
        rw [← Option.some.inj h]
        exact Int32.toInt_ofInt_of_le hrange.1 hrange.2
      case isFalse => cases h
    · rintro rfl
      rw [if_pos ⟨v.le_toInt, v.toInt_lt⟩, Int32.ofInt_toInt]

/-- The value of an optional sign and digits is read behind white space and in front of everything
but a digit, and nothing else is. -/
theorem stoi_eq_some_iff {s : Str} {v : Int32} : stoi s = some v ↔
    ∃ before literal after, s = before ++ (literal ++ after) ∧ (∀ c ∈ before, isSpace c = true) ∧
      Denotes literal v ∧ Lexer.Stops isDigit after := by
  constructor
  · intro hs
    -- The text falls into the white space, the sign, the digits and the rest.
    obtain ⟨hspaces, -, hsplit⟩ := Lexer.takeRun isSpace s
    obtain ⟨sign, hsign, htext, hneg⟩ := takeSign_eq (s.dropWhile isSpace)
    rcases htake : takeSign (s.dropWhile isSpace) with ⟨negative, rest⟩
    rw [htake] at htext hneg
    obtain ⟨hdigits, hstop, hds⟩ := Lexer.takeRun isDigit rest
    obtain ⟨hne, hv⟩ := (stoi_of_takeSign htake).mp hs
    refine ⟨s.takeWhile isSpace, sign ++ rest.takeWhile isDigit, rest.dropWhile isDigit, ?_, hspaces,
      ⟨sign, _, rfl, hsign, hne, hdigits, ?_⟩, hstop⟩
    · rw [List.append_assoc, ← hds, ← htext]
      exact hsplit
    · obtain rfl : negative = decide (sign = [45]) := hneg
      simpa only [decide_eq_true_eq] using hv
  · rintro ⟨before, literal, after, rfl, hspaces, hliteral, hstop⟩
    obtain ⟨c, rest, hhead, hc⟩ := hliteral.head
    have hnospace : Lexer.Stops isSpace (literal ++ after) := by
      rw [hhead]
      rintro d tl hcons
      obtain ⟨rfl, -⟩ := List.cons.inj hcons
      exact hc
    obtain ⟨sign, ds, rfl, hsign, hne, hdigits, hv⟩ := hliteral
    have htake : takeSign ((before ++ (sign ++ ds ++ after)).dropWhile isSpace) =
        (decide (sign = [45]), ds ++ after) := by
      rw [(Lexer.takeWhile_run hspaces hnospace).2, List.append_assoc,
        takeSign_append hsign hne hdigits]
    rw [stoi_of_takeSign htake, (Lexer.takeWhile_run hdigits hstop).1]
    simp only [decide_eq_true_eq]
    exact ⟨hne, hv⟩

/-- `stoi` reads the literals and what is loosely one. -/
theorem stoi_eq_some_iff_or {s : Str} {v : Int32} : stoi s = some v ↔ Denotes s v ∨ Loose s v := by
  rw [stoi_eq_some_iff]
  constructor
  · rintro ⟨before, literal, after, rfl, hspaces, hliteral, hstop⟩
    by_cases hbare : before = [] ∧ after = []
    · obtain ⟨rfl, rfl⟩ := hbare
      rw [List.append_nil]
      exact Or.inl hliteral
    · exact Or.inr ⟨before, literal, after, rfl, hspaces, hliteral, hstop, by tauto⟩
  · rintro (hliteral | ⟨before, literal, after, rfl, hspaces, hliteral, hstop, -⟩)
    · refine ⟨[], s, [], (List.append_nil s).symm, by simp, hliteral, ?_⟩
      exact fun _ _ h => absurd h (by simp)
    · exact ⟨before, literal, after, rfl, hspaces, hliteral, hstop⟩

/-- What is only loosely a literal is none. -/
theorem Loose.not_denotes {s : Str} {v w : Int32} (h : Loose s v) : ¬ Denotes s w := by
  obtain ⟨before, literal, after, rfl, hspaces, hliteral, hstop, hne⟩ := h
  intro hwhole
  cases before with
  | cons c before =>
    obtain ⟨d, rest, hhead, hd⟩ := hwhole.head
    obtain ⟨rfl, -⟩ := List.cons.inj hhead
    rw [hspaces c (List.mem_cons_self ..)] at hd
    cases hd
  | nil =>
    obtain ⟨c, tl, rfl⟩ := List.exists_cons_of_ne_nil (hne.resolve_left fun h => h rfl)
    obtain ⟨sign, ds, rfl, hsign, hds, hdigits, -⟩ := hliteral
    obtain ⟨sign', ds', hsame, hsign', hds', hdigits', -⟩ := hwhole
    have hleft := takeSign_append hsign hds hdigits (c :: tl)
    have hright := takeSign_append hsign' hds' hdigits' []
    rw [List.append_nil, ← hsame, List.nil_append, List.append_assoc, hleft] at hright
    have hmem : c ∈ ds' := by
      rw [← (Prod.mk.inj hright).2]
      simp
    have hdigit := hdigits' c hmem
    rw [hstop c tl rfl] at hdigit
    cases hdigit

/-- On the strings that are not loosely a literal, `stoi` reads whole literals only. -/
theorem stoi_whole_iff {s : Str} {v : Int32} : (stoi s = some v ↔ Denotes s v) ↔ ¬ Loose s v := by
  rw [stoi_eq_some_iff_or]
  constructor
  · intro h hloose
    exact hloose.not_denotes (h.mp (Or.inr hloose))
  · intro hloose
    exact ⟨fun h => h.resolve_right hloose, Or.inl⟩

/-- A literal has only digits behind its sign, and `stoi` reads it. -/
theorem denotes_iff {s : Str} {v : Int32} :
    Denotes s v ↔ (takeSign s).2.all isDigit = true ∧ stoi s = some v := by
  constructor
  · intro h
    refine ⟨?_, stoi_eq_some_iff_or.mpr (Or.inl h)⟩
    obtain ⟨sign, ds, rfl, hsign, hne, hdigits, -⟩ := h
    have htake := takeSign_append hsign hne hdigits []
    rw [List.append_nil] at htake
    rw [htake]
    exact List.all_eq_true.mpr hdigits
  · rintro ⟨hall, hs⟩
    refine (stoi_eq_some_iff_or.mp hs).resolve_right ?_
    rintro ⟨before, literal, after, rfl, hspaces, hliteral, hstop, hne⟩
    rw [List.all_eq_true] at hall
    cases before with
    | cons c before =>
      have hc := hspaces c (List.mem_cons_self ..)
      obtain ⟨sign, hsign, htext, -⟩ := takeSign_eq (c :: before ++ (literal ++ after))
      rcases hsign with rfl | rfl | rfl
      · rw [List.nil_append] at htext
        rw [← htext] at hall
        have hdigit := isDigit_bounds (hall c (by simp))
        rw [hc] at hdigit
        cases hdigit.2.2
      · obtain ⟨rfl, -⟩ := List.cons.inj htext
        exact absurd hc (by decide)
      · obtain ⟨rfl, -⟩ := List.cons.inj htext
        exact absurd hc (by decide)
    | nil =>
      obtain ⟨c, tl, rfl⟩ := List.exists_cons_of_ne_nil (hne.resolve_left fun h => h rfl)
      obtain ⟨sign, ds, rfl, hsign, hds, hdigits, -⟩ := hliteral
      rw [List.nil_append, List.append_assoc, takeSign_append hsign hds hdigits] at hall
      have hdigit := hall c (by simp)
      rw [hstop c tl rfl] at hdigit
      cases hdigit

instance (s : Str) (v : Int32) : Decidable (Denotes s v) := decidable_of_iff _ denotes_iff.symm

/-! ## The values of an insertion -/

/-- The value of a literal in a column: an integer by a whole literal, a text as it stands. -/
def Column.Reads (col : Column) (s : Str) (v : Value) : Prop :=
  match col.type with
  | .int => ∃ n, v = .int n ∧ Denotes s n
  | .text => v = .text s

/-- The value of a literal that is not whole in an integer column. -/
def Column.ReadsLoosely (col : Column) (s : Str) (v : Value) : Prop :=
  col.type = .int ∧ ∃ n, v = .int n ∧ Loose s n

/-- The row of whole literals. -/
def Schema.ReadsRow (schema : Schema) (values : List Str) (row : Tuple) : Prop :=
  List.Forall₂ (fun e v => e.1.Reads e.2 v) (schema.zip values) row

/-- Every value is a literal of its column, whole or loosely, and one of them only loosely. -/
def Schema.LooseRow (schema : Schema) (values : List Str) : Prop :=
  ∃ row, List.Forall₂ (fun e v => e.1.Reads e.2 v ∨ e.1.ReadsLoosely e.2 v) (schema.zip values) row ∧
    ∃ e ∈ schema.zip values, ∃ v, e.1.ReadsLoosely e.2 v

theorem Column.convert_eq_some_iff {col : Column} {s : Str} {v : Value} :
    col.convert s = some v ↔ col.Reads s v ∨ col.ReadsLoosely s v := by
  unfold Column.convert Column.Reads Column.ReadsLoosely
  cases col.type with
  | int =>
    simp only [Option.map_eq_some_iff, stoi_eq_some_iff_or, true_and]
    constructor
    · rintro ⟨n, hn | hn, rfl⟩
      · exact Or.inl ⟨n, rfl, hn⟩
      · exact Or.inr ⟨n, rfl, hn⟩
    · rintro (⟨n, rfl, hn⟩ | ⟨n, rfl, hn⟩)
      · exact ⟨n, Or.inl hn, rfl⟩
      · exact ⟨n, Or.inr hn, rfl⟩
  | text =>
    simp only [Option.some.injEq, reduceCtorEq, false_and, or_false]
    exact eq_comm

namespace Engine

open Program

/-- The values are converted to a row when each is, whole or loosely, a literal of its column. -/
theorem convertValues_eq_ok_iff {schema : Schema} {values : List Str} {row : Tuple} :
    convertValues schema values = .ok row ↔
      List.Forall₂ (fun e v => e.1.Reads e.2 v ∨ e.1.ReadsLoosely e.2 v) (schema.zip values) row := by
  rw [← Machine.toOption_eq_some, convertValues_toOption, Machine.mapM_eq_some]
  simp only [Column.convert_eq_some_iff]

/-- A value that is only loosely a literal is in no row of whole literals. -/
theorem not_readsRow {schema : Schema} {values : List Str} {e : Column × Str} {v : Value}
    (he : e ∈ schema.zip values) (hloose : e.1.ReadsLoosely e.2 v) (row : Tuple) :
    ¬ schema.ReadsRow values row := by
  intro hrow
  obtain ⟨i, hi, rfl⟩ := List.getElem_of_mem he
  have hv := (List.forall₂_iff_get.mp hrow).2 i hi (hrow.length_eq ▸ hi)
  obtain ⟨hint, n, -, hn⟩ := hloose
  simp only [Column.Reads, List.get_eq_getElem, hint] at hv
  obtain ⟨n', -, hn'⟩ := hv
  exact hn.not_denotes hn'

/-- The rejection of an `INSERT` for a value that is no integer. -/
def expectedInteger (column : Str) : Reply :=
  .error (lit "Error: expected integer for column '" ++ column ++ lit "'.")

/-- What `executeInsert` does with a row of values. -/
def storeRow (tableName : Str) (info : TableInfo) (row : Tuple) : Program Engine Fault Reply := do
  let txnId ← beginTxn
  insertExecutor tableName info row
  commitTxn txnId
  countRow tableName
  return .inserted

/-- `INSERT` takes whole literals only: it stores the row of the integers that its values denote,
and rejects the values when one of them denotes none. -/
structure InsertsWhole (db : Engine) (stmt : Statement) (info : TableInfo) : Prop where
  accepts : ∀ row, info.schema.ReadsRow stmt.values row →
    (executeInsert stmt).run db = (storeRow stmt.tableName info row).run db
  rejects : (∀ row, ¬ info.schema.ReadsRow stmt.values row) →
    ∃ column, (executeInsert stmt).run db = (.ok (expectedInteger column), db)

section Insertion

variable {db : Engine} {stmt : Statement} {info : TableInfo}

theorem run_executeInsert_ok (hinfo : db.catalog.getTable stmt.tableName = some info)
    (hlen : stmt.values.length = info.schema.columnCount) {row : Tuple}
    (hconv : convertValues info.schema stmt.values = .ok row) :
    (executeInsert stmt).run db = (storeRow stmt.tableName info row).run db := by
  unfold executeInsert
  rw [run_get_bind]
  simp only [hinfo, if_neg (not_not.mpr hlen), hconv]
  rfl

theorem run_executeInsert_error (hinfo : db.catalog.getTable stmt.tableName = some info)
    (hlen : stmt.values.length = info.schema.columnCount) {column : Str}
    (hconv : convertValues info.schema stmt.values = .error column) :
    (executeInsert stmt).run db = (.ok (expectedInteger column), db) := by
  unfold executeInsert
  rw [run_get_bind]
  simp only [hinfo, if_neg (not_not.mpr hlen), hconv]
  rfl

/-- A row that is stored is acknowledged, unless a fault ends the statement. -/
theorem storeRow_inserted (tableName : Str) (row : Tuple) :
    wp (fun _ => True) (storeRow tableName info row) (fun reply _ => reply = .inserted) db := by
  have hany : ∀ _ : Fault, True := fun _ => trivial
  unfold storeRow
  refine wp_bind.mpr (wp_of_forall hany fun txnId db₁ => ?_)
  refine wp_bind.mpr (wp_of_forall hany fun _ db₂ => ?_)
  refine wp_bind.mpr (wp_of_forall hany fun _ db₃ => ?_)
  exact wp_bind.mpr (wp_of_forall hany fun _ db₄ => rfl)

/-- `INSERT` takes whole literals only, unless its values are literals and one of them only
loosely. -/
theorem insertsWhole_iff (hinfo : db.catalog.getTable stmt.tableName = some info)
    (hlen : stmt.values.length = info.schema.columnCount) :
    InsertsWhole db stmt info ↔ ¬ info.schema.LooseRow stmt.values := by
  constructor
  · rintro hwhole ⟨row, hrow, e, he, v, hloose⟩
    obtain ⟨column, hreject⟩ := hwhole.rejects (not_readsRow he hloose)
    rw [run_executeInsert_ok hinfo hlen (convertValues_eq_ok_iff.mpr hrow)] at hreject
    exact absurd (wp_of_ok (storeRow_inserted stmt.tableName row) hreject) (by simp [expectedInteger])
  · intro hstrict
    refine ⟨fun row hrow => ?_, fun hnone => ?_⟩
    · exact run_executeInsert_ok hinfo hlen
        (convertValues_eq_ok_iff.mpr (hrow.imp fun _ _ => Or.inl))
    · cases hconv : convertValues info.schema stmt.values with
      | error column => exact ⟨column, run_executeInsert_error hinfo hlen hconv⟩
      | ok row =>
        have hrow := convertValues_eq_ok_iff.mp hconv
        refine absurd ⟨row, hrow, ?_⟩ hstrict
        by_contra hwhole
        push Not at hwhole
        refine hnone row (List.forall₂_iff_get.mpr ⟨hrow.length_eq, fun i hi hi' => ?_⟩)
        have hval := (List.forall₂_iff_get.mp hrow).2 i hi hi'
        exact hval.resolve_right (hwhole _ (List.get_mem ..) _)

end Insertion

/-! ## The rows of a `WHERE` clause -/

/-- The column `i` of the row holds an integer that the string denotes, by a whole literal. -/
def holdsInt (i : ℕ) (s : Str) (row : Tuple) : Bool :=
  match row[i]? with
  | some (.int n) => Denotes s n
  | _ => false

/-- The scan of `DeleteExecutor::init`: the rows to delete. -/
def deleteScan (info : TableInfo) (predicate : Predicate) :
    Program Engine Fault (List (RID × Int32)) :=
  onStorage (PageManager.scanTable (deleteCallback info.schema predicate) info.fileId [])

/-- What `executeDelete` does with the rows to delete. -/
def deleteRows (tableName : Str) (info : TableInfo) (toDelete : List (RID × Int32)) :
    Program Engine Fault Reply := do
  let txnId ← beginTxn
  toDelete.foldlM (fun _ entry => deleteOne tableName info.fileId entry) ()
  let deletedCount := toDelete.length
  let rowCount := if deletedCount ≤ info.rowCount then info.rowCount - deletedCount else 0
  update fun db => { db with catalog := db.catalog.setRowCount tableName rowCount }
  commitTxn txnId
  return .deleted deletedCount

/-- On a table with these rows, a `WHERE` clause on the integer column `i` compares with whole
literals only: the scans of `SELECT` and `DELETE` find the rows whose integer the literal denotes,
which `SELECT` puts out and `DELETE` deletes. -/
structure MatchesWhole (db : Engine) (stmt : Statement) (info : TableInfo) (i : ℕ)
    (rows : List (RID × Tuple)) (db₀ : Engine) : Prop where
  found : ∀ predicate, predicateFor info.schema stmt = .ok predicate →
    (seqScan info predicate).run db =
      (.ok ((rows.filter fun e => holdsInt i stmt.where_.value e.2).map Prod.snd), db₀)
  toDelete : ∀ predicate, predicateFor info.schema stmt = .ok predicate →
    (deleteScan info predicate).run db = (.ok ((rows.filter fun e =>
      holdsInt i stmt.where_.value e.2).map fun e => (e.1, primaryKey e.2)), db₀)
  select : ∀ cols, outputColumns info.schema stmt = .ok cols → (executeSelect stmt).run db =
    (.ok (.rows (cols.map Prod.fst) ((rows.filter fun e =>
      holdsInt i stmt.where_.value e.2).map fun e => project cols e.2)), db₀)
  delete : (executeDelete stmt).run db = (deleteRows stmt.tableName info ((rows.filter fun e =>
    holdsInt i stmt.where_.value e.2).map fun e => (e.1, primaryKey e.2))).run db₀

section Matching

variable {db db₀ : Engine} {stmt : Statement} {info : TableInfo} {i : ℕ} {col : Column}
  {rows : List (RID × Tuple)} {predicate : Predicate}

/-- The test of a `WHERE` clause on the integer column `i`. -/
def comparesInt (i : ℕ) (s : Str) (row : Tuple) : Bool :=
  match row[i]? with
  | some (.int n) => stoi s = some n
  | _ => false

theorem whereTest_int (i : ℕ) (s : Str) (row : Tuple) :
    whereTest i .int s row = .ok (comparesInt i s row) := by
  unfold whereTest comparesInt
  cases row[i]? with
  | none => rfl
  | some v => cases v <;> rfl

theorem predicateFor_int (hwhere : stmt.hasWhere = true)
    (hfind : info.schema.findColumn stmt.where_.column = some i) (hcol : info.schema[i]? = some col)
    (hint : col.type = .int) :
    predicateFor info.schema stmt = .ok (some (whereTest i .int stmt.where_.value)) := by
  simp only [predicateFor, hwhere, if_true, hfind, hcol, hint]

/-- The two tests differ on the rows that hold an integer the string only loosely denotes. -/
theorem comparesInt_eq_iff {s : Str} {row : Tuple} : comparesInt i s row = holdsInt i s row ↔
    ∀ n, row[i]? = some (.int n) → ¬ Loose s n := by
  unfold comparesInt holdsInt
  cases row[i]? with
  | none => simp
  | some v =>
    cases v with
    | text t => simp
    | int n =>
      simp only [decide_eq_decide, stoi_whole_iff, Option.some.injEq, Value.int.injEq, forall_eq']

/-- A whole literal is read. -/
theorem comparesInt_of_holdsInt {s : Str} {row : Tuple} (h : holdsInt i s row = true) :
    comparesInt i s row = true := by
  unfold holdsInt at h
  unfold comparesInt
  split at h
  case h_1 n hn =>
    rw [decide_eq_true_eq] at h
    simp only [stoi_eq_some_iff_or.mpr (Or.inl h), decide_true]
  case h_2 => cases h

/-- A deletion scan finds the live rows that pass its predicate. -/
theorem run_deleteScan (hrows : (liveRows info).run db = (.ok rows, db₀)) (test : Tuple → Bool)
    (htest : ∀ tuple, passes predicate tuple = .ok (test tuple)) :
    (deleteScan info predicate).run db =
      (.ok ((rows.filter fun e => test e.2).map fun e => (e.1, primaryKey e.2)), db₀) := by
  refine run_scanTable_image hrows (fun rows =>
    (rows.filter fun e => test e.2).map fun e => (e.1, primaryKey e.2)) fun rows rid data len => ?_
  unfold deleteCallback rowCallback
  cases deserializeTuple data len info.schema with
  | error e => rfl
  | ok tuple =>
    rw [Machine.ok_bind, Machine.ok_bind, htest, Machine.ok_bind]
    cases hpass : test tuple <;> simp [hpass, Except.map]

/-- `SELECT` puts out the rows that its scan finds. -/
theorem run_executeSelect (hinfo : db.catalog.getTable stmt.tableName = some info)
    (hp : predicateFor info.schema stmt = .ok predicate) {cols : List (Str × ℕ)}
    (hcols : outputColumns info.schema stmt = .ok cols) {tuples : List Tuple}
    (hscan : (seqScan info predicate).run db = (.ok tuples, db₀)) :
    (executeSelect stmt).run db =
      (.ok (.rows (cols.map Prod.fst) (tuples.map (project cols))), db₀) := by
  unfold executeSelect
  rw [run_get_bind]
  simp only [hinfo, hp]
  rw [run_bind_ok hscan]
  simp only [hcols]
  rfl

/-- `DELETE` deletes the rows that its scan finds. -/
theorem run_executeDelete (hinfo : db.catalog.getTable stmt.tableName = some info)
    (hp : predicateFor info.schema stmt = .ok predicate) {toDelete : List (RID × Int32)}
    (hscan : (deleteScan info predicate).run db = (.ok toDelete, db₀)) :
    (executeDelete stmt).run db = (deleteRows stmt.tableName info toDelete).run db₀ := by
  have hstorage : ∀ db : Engine, (deleteScan info predicate).run db =
      (((PageManager.scanTable (deleteCallback info.schema predicate) info.fileId []).run
        db.storage).1, { db with storage := ((PageManager.scanTable
          (deleteCallback info.schema predicate) info.fileId []).run db.storage).2 }) := fun _ => rfl
  -- The scan touches the storage only, and the beginning of the transaction everything but it.
  rw [hstorage] at hscan
  obtain ⟨hresult, rfl⟩ := Prod.mk.inj hscan
  unfold executeDelete
  rw [run_get_bind]
  simp only [hinfo, hp]
  have hbegin : ∀ db : Engine, beginTxn.run db = (.ok db.txnMgr.nextTxnId, (beginTxn.run db).2) :=
    fun _ => rfl
  have hscan' : (deleteScan info predicate).run (beginTxn.run db).2 = (.ok toDelete,
      (beginTxn.run { db with storage := ((PageManager.scanTable
        (deleteCallback info.schema predicate) info.fileId []).run db.storage).2 }).2) := by
    rw [hstorage, ← hresult]
    rfl
  rw [run_bind_ok (hbegin db), deleteRows, run_bind_ok (hbegin _), deleteExecutor, bind_assoc]
  refine (run_bind_ok hscan').trans ?_
  simp only [bind_assoc]
  rfl

/-- A `WHERE` clause on an integer column compares with whole literals only, unless a row holds an
integer that the literal only loosely denotes. -/
theorem matchesWhole_iff (hinfo : db.catalog.getTable stmt.tableName = some info)
    (hwhere : stmt.hasWhere = true)
    (hfind : info.schema.findColumn stmt.where_.column = some i) (hcol : info.schema[i]? = some col)
    (hint : col.type = .int) (hrows : (liveRows info).run db = (.ok rows, db₀)) :
    MatchesWhole db stmt info i rows db₀ ↔
      ∀ rid row n, (rid, row) ∈ rows → row[i]? = some (.int n) → ¬ Loose stmt.where_.value n := by
  have hp := predicateFor_int hwhere hfind hcol hint
  have htest : ∀ row, passes (some (whereTest i .int stmt.where_.value)) row =
      .ok (comparesInt i stmt.where_.value row) := whereTest_int i stmt.where_.value
  have hseq := run_seqScan hrows (comparesInt i stmt.where_.value) htest
  have hdel := run_deleteScan hrows (comparesInt i stmt.where_.value) htest
  constructor
  · intro hwhole rid row n hmem hn hloose
    have hfound := (Prod.mk.inj ((hwhole.found _ hp).symm.trans hseq)).1
    have hlength := congrArg List.length (Except.ok.inj hfound)
    rw [List.length_map, List.length_map] at hlength
    have hsub : (rows.filter fun e => holdsInt i stmt.where_.value e.2).Sublist
        (rows.filter fun e => comparesInt i stmt.where_.value e.2) :=
      List.monotone_filter_right rows fun e => comparesInt_of_holdsInt
    have hcompares : (rid, row) ∈ rows.filter fun e => comparesInt i stmt.where_.value e.2 :=
      List.mem_filter.mpr ⟨hmem, by simp [comparesInt, hn, stoi_eq_some_iff_or.mpr (Or.inr hloose)]⟩
    rw [← hsub.eq_of_length hlength, List.mem_filter] at hcompares
    have hholds := hcompares.2
    simp only [holdsInt, hn, decide_eq_true_eq] at hholds
    exact hloose.not_denotes hholds
  · intro hstrict
    have hfilter : (rows.filter fun e => comparesInt i stmt.where_.value e.2) =
        rows.filter fun e => holdsInt i stmt.where_.value e.2 :=
      List.filter_congr fun e he =>
        comparesInt_eq_iff.mpr fun n hn => hstrict e.1 e.2 n he hn
    rw [hfilter] at hseq hdel
    refine ⟨?_, ?_, ?_, ?_⟩
    · intro predicate hpredicate
      obtain rfl := Except.ok.inj (hp.symm.trans hpredicate)
      exact hseq
    · intro predicate hpredicate
      obtain rfl := Except.ok.inj (hp.symm.trans hpredicate)
      exact hdel
    · intro cols hcols
      rw [run_executeSelect hinfo hp hcols hseq, List.map_map]
      rfl
    · exact run_executeDelete hinfo hp hdel

end Matching

/-- `INSERT` takes whole literals only if and only if not all its values are literals with one of
them only loosely one; and a `WHERE` clause on an integer column compares with whole literals only
if and only if no row of the table holds an integer that its literal only loosely denotes. -/
theorem literals_whole_iff (db : Engine) (stmt : Statement) (info : TableInfo)
    (hinfo : db.catalog.getTable stmt.tableName = some info) :
    (stmt.values.length = info.schema.columnCount →
      (InsertsWhole db stmt info ↔ ¬ info.schema.LooseRow stmt.values)) ∧
    ∀ i col rows db₀, stmt.hasWhere = true →
      info.schema.findColumn stmt.where_.column = some i → info.schema[i]? = some col →
      col.type = .int → (liveRows info).run db = (.ok rows, db₀) →
      (MatchesWhole db stmt info i rows db₀ ↔
        ∀ rid row n, (rid, row) ∈ rows → row[i]? = some (.int n) → ¬ Loose stmt.where_.value n) :=
  ⟨insertsWhole_iff hinfo, fun _ _ _ _ hwhere hfind hcol hint hrows =>
    matchesWhole_iff hinfo hwhere hfind hcol hint hrows⟩

/-- Whole literals in an insertion and in a `WHERE` clause. -/
theorem literals_whole_iff_signs : ∃ db info rows db₀,
    db.catalog.getTable (lit "t") = some info ∧ (liveRows info).run db = (.ok rows, db₀) ∧
    rows ≠ [] ∧ InsertsWhole db (sampleInsert "-7" "b") info ∧
    MatchesWhole db (sampleSelect "id" "+1") info 0 rows db₀ := by
  obtain ⟨db, replies, info, db₀, hrun, hinfo, -, hschema, hrows⟩ := sample_observed
  obtain ⟨hinsert, -⟩ := literals_whole_iff db (sampleInsert "-7" "b") info hinfo
  obtain ⟨-, hmatch⟩ := literals_whole_iff db (sampleSelect "id" "+1") info hinfo
  refine ⟨db, info, _, db₀, hinfo, hrows, by simp, (hinsert (by rw [hschema]; rfl)).mpr ?_,
    (hmatch 0 ⟨lit "id", .int⟩ _ db₀ rfl (by rw [hschema]; decide) (by rw [hschema]; rfl) rfl
      hrows).mpr ?_⟩
  · rintro ⟨-, -, e, he, v, hint, n, -, hloose⟩
    rw [hschema] at he
    rcases List.mem_cons.mp he with rfl | he
    · exact hloose.not_denotes (w := -7) (by decide)
    · rw [List.mem_singleton.mp he] at hint
      cases hint
  · intro rid row n _ _ hloose
    exact hloose.not_denotes (w := 1) (by decide)

/-- A value with letters behind its digits is inserted, and it is found and deleted with white space
around it; none of the three is a literal. -/
theorem literals_not_whole :
    Parser.parse (Lexer.handleInput (lit "INSERT INTO t VALUES ('12abc', 'x')")) =
      .ok (sampleInsert "12abc" "x", [⟨.eof, []⟩]) ∧
    (executeAll (Engine.new (fun _ => none) ⟨[], [], 1⟩) [sampleTable, sampleInsert "12abc" "x",
      sampleSelect "id" "12 ", sampleDelete "id" " 12"]).map Prod.snd =
      .ok [.created 2, .inserted, .rows [lit "id", lit "name"] [[.int 12, .text (lit "x")]],
        .deleted 1] ∧
    (∀ v, ¬ Denotes (lit "12abc") v) ∧ (∀ v, ¬ Denotes (lit "12 ") v) ∧
    ∀ v, ¬ Denotes (lit " 12") v := by
  have hnone : ∀ {s : Str}, (takeSign s).2.all isDigit = false → ∀ v, ¬ Denotes s v := by
    intro s hs v h
    rw [(denotes_iff.mp h).1] at hs
    cases hs
  exact ⟨by decide, by decide +kernel, hnone (by decide), hnone (by decide), hnone (by decide)⟩

end Engine

end MiniDB
