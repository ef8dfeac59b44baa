import MiniDB.Engine.Literals
import MiniDB.Engine.Repl
import MiniDB.Parser.Printing

/-!
# Dumping and restoring tables

What `SELECT *` prints of a table can be typed in again. The values are printed with
`Value::toString`; a `CREATE TABLE` with the columns of the table and one `INSERT` for each row, its
values between quotes, give a table with the same rows.

## Main definitions

* `Value.toString`: the text of a value
* `Sql.text`: a statement with a space behind every token and its values between quotes
* `dump`: the statements that restore a table
* `Legible D`: what the statements of a session leave in the tables

## Main results

* `typedRow_toString`: the texts of a row are converted to the row
* `Sql.parse_text`: the text of a statement parses to the statement
* `Engine.dump_restores`: the dump of every table of every session restores it
-/

namespace MiniDB

/-! ## The text of a value -/

/-- `Value::toString`. -/
def Value.toString : Value → Str
  | .int v => lit (ToString.toString v.toInt)
  | .text s => s

theorem byte_of_isDigit {c : Char} (hc : c.isDigit = true) :
    isDigit c.toNat.toUInt8 = true ∧ c.toNat.toUInt8.toNat = c.toNat := by
  obtain ⟨hzero, hnine⟩ := Char.isDigit_iff_toNat.mp hc
  have hlt : '9'.toNat < 256 := by decide
  have hbyte : c.toNat.toUInt8.toNat = c.toNat := by
    rw [Nat.toUInt8_eq, UInt8.toNat_ofNat']
    omega
  refine ⟨?_, hbyte⟩
  simp only [isDigit, Bool.and_eq_true, decide_eq_true_eq, UInt8.le_iff_toNat_le, hbyte]
  exact ⟨hzero, hnine⟩

theorem foldl_bytes {cs : List Char} (hcs : ∀ c ∈ cs, c.isDigit = true) (init : ℕ) :
    (cs.map fun c => c.toNat.toUInt8).foldl (fun n c => 10 * n + (c.toNat - 48)) init =
      Nat.ofDigitChars 10 cs init := by
  induction cs generalizing init with
  | nil => rfl
  | cons c cs ih =>
    obtain ⟨hc, hcs⟩ := List.forall_mem_cons.mp hcs
    rw [List.map_cons, List.foldl_cons, Nat.ofDigitChars_cons, (byte_of_isDigit hc).2, ih hcs]
    rfl

/-- The decimal digits of a number are read back. -/
theorem digits_repr (n : ℕ) :
    digits (lit n.repr) = n ∧ lit n.repr ≠ [] ∧ ∀ c ∈ lit n.repr, isDigit c = true := by
  have hchars : ∀ c ∈ Nat.toDigits 10 n, c.isDigit = true :=
    fun c hc => Nat.isDigit_of_mem_toDigits (by decide) (by decide) hc
  rw [lit, Nat.toList_repr]
  refine ⟨?_, by simp [Nat.toDigits_ne_nil], ?_⟩
  · rw [digits, foldl_bytes hchars]
    exact Nat.ofDigitChars_ten_toDigits
  · intro c hc
    obtain ⟨d, hd, rfl⟩ := List.mem_map.mp hc
    exact (byte_of_isDigit (hchars d hd)).1

/-- The text of an integer is a literal of the integer. -/
theorem denotes_toString (v : Int32) : Denotes (Value.int v).toString v := by
  show Denotes (lit (ToString.toString v.toInt)) v
  cases hv : v.toInt with
  | ofNat n =>
    obtain ⟨hdigits, hne, hall⟩ := digits_repr n
    refine ⟨[], lit n.repr, rfl, Or.inl rfl, hne, hall, ?_⟩
    rw [hdigits, hv]
    rfl
  | negSucc n =>
    obtain ⟨hdigits, hne, hall⟩ := digits_repr (n + 1)
    refine ⟨[45], lit (n + 1).repr, ?_, Or.inr (Or.inr rfl), hne, hall, ?_⟩
    · simp [lit, ToString.toString, Int.repr]
    · rw [hdigits, hv, if_pos rfl]
      rfl

/-- The text of an integer has no quote. -/
theorem quote_not_mem_int (v : Int32) : Lexer.quote ∉ (Value.int v).toString := by
  obtain ⟨sign, ds, htext, hsign, -, hdigits, -⟩ := denotes_toString v
  rw [htext, List.mem_append, not_or]
  refine ⟨?_, fun hmem => absurd (hdigits _ hmem) (by decide)⟩
  rcases hsign with rfl | rfl | rfl <;> decide

/-- The text of a value is converted to the value. -/
theorem Column.convert_toString {col : Column} {v : Value} (h : v.type = col.type) :
    col.convert v.toString = some v := by
  unfold Column.convert
  cases v with
  | int n =>
    rw [← show DataType.int = col.type from h]
    dsimp only
    rw [stoi_eq_some_iff_or.mpr (Or.inl (denotes_toString n))]
    rfl
  | text s =>
    rw [← show DataType.text = col.type from h]
    rfl

/-- The texts of a row are converted to the row. -/
theorem typedRow_toString {schema : Schema} {row : Tuple} (h : row.matchesSchema schema = true) :
    schema.typedRow (row.map Value.toString) = some row := by
  have htypes : row.map Value.type = schema.map Column.type := of_decide_eq_true h
  have hlength : row.length = schema.columnCount := Tuple.length_of_matchesSchema h
  rw [Schema.typedRow, if_pos (by rw [List.length_map, hlength]), Machine.mapM_eq_some]
  clear h hlength
  induction schema generalizing row with
  | nil =>
    obtain rfl : row = [] := by simpa using htypes
    exact .nil
  | cons col schema ih =>
    cases row with
    | nil => cases htypes
    | cons v row =>
      obtain ⟨hv, hrest⟩ := List.cons.inj htypes
      exact .cons (Column.convert_toString hv) (ih hrest)

/-! ## The text of a statement -/

namespace Parser

open Lexer

/-- The token that a slot is written as: a value is a literal between quotes. -/
def Slot.quoted : Slot → Token
  | .value text => ⟨.string, text⟩
  | s => s.token

/-- The statement with a space behind every token. -/
def Sql.text (q : Sql) : Str := spaced (q.slots.map fun s => (s.quoted, [32]))

/-- The names of the slot can be written down, and its value between quotes. -/
def Slot.Legible : Slot → Prop
  | .keyword type => type ∈ keywords.map Prod.snd ++ symbols.map Prod.snd
  | .identifier text => Spelled ⟨.identifier, text⟩
  | .value text => quote ∉ text

theorem Slot.Legible.spelled {s : Slot} (h : s.Legible) : Spelled s.quoted := by
  cases s with
  | keyword => exact spelled_keyword h
  | identifier => exact h
  | value => exact .string h

theorem fits_quoted : ∀ s : Slot, s.Fits s.quoted
  | .keyword _ => rfl
  | .identifier _ => ⟨rfl, rfl⟩
  | .value _ => ⟨Or.inr (Or.inl rfl), rfl⟩

/-- The text of a statement parses to the statement. -/
theorem Sql.parse_text {q : Sql} (h : ∀ s ∈ q.slots, s.Legible) :
    parse (handleInput q.text) = .ok (q.statement, [⟨.eof, []⟩]) := by
  have hspace : ∀ c ∈ ([32] : Str), isSpace c = true := by decide +kernel
  have hwritten : Written q.text
      ((q.slots.map fun s => (s.quoted, ([32] : Str))).map fun p => ⟨p.1, p.1.text⟩) := by
    refine written_spaced ?_ ?_ ?_
    · exact List.forall_mem_map.mpr fun s hs => (h s hs).spelled
    · exact List.forall_mem_map.mpr fun _ _ => hspace
    · intro p hp
      obtain ⟨s, -, rfl⟩ := List.mem_map.mp (List.dropLast_subset _ hp)
      simp
  have htokens : handleInput q.text = q.slots.map Slot.quoted ++ [⟨.eof, []⟩] := by
    rw [handleInput_eq, written_iff.mp hwritten, List.map_map, List.map_map]
    rfl
  have hfits : List.Forall₂ Slot.Fits q.slots (q.slots.map Slot.quoted) :=
    List.forall₂_map_right_iff.mpr (List.forall₂_same.mpr fun s _ => fits_quoted s)
  rw [htokens]
  exact parse_eq_ok.mpr ⟨_, Sql.core_of_fits q hfits,
    Or.inr ⟨⟨.eof, []⟩, [], rfl, rfl, by simp, fun _ => by simp⟩⟩

end Parser

/-! ## What a session leaves in the tables -/

open MiniDB.Parser

/-- A table whose names and texts can be written down and whose rows fit a page. -/
structure Legible (name : Str) (schema : Schema) (rows : Multiset Tuple) : Prop where
  name : Lexer.Spelled ⟨.identifier, name⟩
  columns : ∀ col ∈ schema, Lexer.Spelled ⟨.identifier, col.name⟩
  rows : ∀ row ∈ rows, RowOk schema row ∧ ∀ v ∈ row, Lexer.quote ∉ v.toString

/-- All tables can be written down. -/
def Database.Legible (D : Database) : Prop :=
  ∀ name schema rows, D name = some (schema, rows) → MiniDB.Legible name schema rows

/-- The statement of an input has slots that can be written down. -/
theorem legible_of_parse {input : Str} {stmt : Statement} {rest : List Token}
    (h : parse (Lexer.handleInput input) = .ok (stmt, rest)) :
    ∃ q : Sql, q.statement = stmt ∧ ∀ s ∈ q.slots, s.Legible := by
  obtain ⟨core, hcore, hleaves⟩ := parse_eq_ok.mp h
  obtain ⟨q, hq, hslots⟩ := hcore.exists_sql
  refine ⟨q, hq, fun s hs => ?_⟩
  have hfrom := hslots s hs
  cases s with
  | keyword type => exact hfrom
  | identifier text =>
    obtain ⟨tok, htok, htype, rfl⟩ := hfrom
    have hspelled : Lexer.Spelled ⟨tok.type, tok.value⟩ :=
      (Lexer.of_mem_handleInput (hleaves.core_subset htok)).2 (Or.inr htype)
    rw [htype] at hspelled
    exact hspelled
  | value text =>
    obtain ⟨tok, htok, -, rfl⟩ := hfrom
    exact (Lexer.of_mem_handleInput (hleaves.core_subset htok)).1

/-- The row of literals without quotes has no quote in its texts. -/
theorem quote_not_mem_typedRow {schema : Schema} {values : List Str} {row : Tuple}
    (hrow : schema.typedRow values = some row) (hvalues : ∀ s ∈ values, Lexer.quote ∉ s) :
    ∀ v ∈ row, Lexer.quote ∉ v.toString := by
  rw [Schema.typedRow] at hrow
  split at hrow
  case isFalse => cases hrow
  have hzip : ∀ e ∈ schema.zip values, Lexer.quote ∉ e.2 :=
    fun e he => hvalues _ (List.of_mem_zip he).2
  have hconvert := Machine.mapM_eq_some.mp hrow
  clear hrow
  generalize schema.zip values = es at hzip hconvert
  induction hconvert with
  | nil => simp
  | @cons e v es row hv _ ih =>
    obtain ⟨he, hzip⟩ := List.forall_mem_cons.mp hzip
    refine List.forall_mem_cons.mpr ⟨?_, ih hzip⟩
    unfold Column.convert at hv
    split at hv
    · obtain ⟨n, -, rfl⟩ := Option.map_eq_some_iff.mp hv
      exact quote_not_mem_int n
    · obtain rfl := Option.some.inj hv
      exact he

theorem rowOk_typedRow {schema : Schema} {stmt : Statement} {row : Tuple}
    (hrow : schema.typedRow stmt.values = some row) (hfits : Storable (serializeTuple row)) :
    RowOk schema row := by
  rw [← insertedRow_eq, Machine.toOption_eq_some] at hrow
  exact Engine.Holds.rowOk_insertedRow hrow hfits

namespace Database

/-- A table that is put in the place of another one is legible when it is. -/
theorem Legible.update {D : Database} (h : D.Legible) {name : Str} {schema : Schema}
    {rows : Multiset Tuple} (htable : MiniDB.Legible name schema rows) :
    Legible (Function.update D name (some (schema, rows))) := by
  intro name' schema' rows' hname'
  rw [Function.update_apply] at hname'
  split at hname'
  case isTrue heq =>
    obtain ⟨rfl, rfl⟩ := Prod.mk.inj (Option.some.inj hname')
    exact heq ▸ htable
  case isFalse => exact h name' schema' rows' hname'

/-- What a statement can do to the tables. -/
theorem exec_cases (D : Database) (stmt : Statement) : (D.exec stmt).1 = D ∨
    (stmt.type = .createTable ∧ (D.exec stmt).1 =
      Function.update D stmt.tableName (some (Engine.schemaOf stmt.columns, 0))) ∨
    ∃ schema rows, D stmt.tableName = some (schema, rows) ∧
      ((∃ row, stmt.type = .insert ∧ schema.typedRow stmt.values = some row ∧ (D.exec stmt).1 =
        Function.update D stmt.tableName (some (schema, row ::ₘ rows))) ∨
      (D.exec stmt).1 = Function.update D stmt.tableName
        (some (schema, rows.filter (¬ rowMatches schema stmt ·)))) := by
  unfold exec
  split
  case h_2 htype _ => exact Or.inr (Or.inl ⟨htype, rfl⟩)
  case h_3 schema rows htype hname =>
    cases hrow : schema.typedRow stmt.values with
    | none => exact Or.inl rfl
    | some row => exact Or.inr (Or.inr ⟨schema, rows, hname, Or.inl ⟨row, htype, hrow, rfl⟩⟩)
  case h_4 => split <;> exact Or.inl rfl
  case h_5 schema rows htype hname =>
    split
    · exact Or.inr (Or.inr ⟨schema, rows, hname, Or.inr rfl⟩)
    · exact Or.inl rfl
  all_goals exact Or.inl rfl

theorem Legible.exec {D : Database} (h : D.Legible) {q : Sql} (hq : ∀ s ∈ q.slots, s.Legible)
    (hfits : D.StorableRow q.statement) : (D.exec q.statement).1.Legible := by
  rcases exec_cases D q.statement with heq | ⟨htype, heq⟩ | ⟨schema, rows, hname, hrest⟩
  · rw [heq]
    exact h
  · rw [heq]
    cases q with
    | createTable name columns =>
      refine h.update ⟨hq (.identifier name) (by simp [Sql.slots]), ?_, by simp⟩
      intro col hcol
      obtain ⟨c, hc, rfl⟩ := List.mem_map.mp hcol
      obtain ⟨column, hcolumn, rfl⟩ := List.mem_map.mp hc
      have hmem : Slot.identifier column.1 ∈ commaSeparated (columns.map columnSlots) :=
        mem_commaSeparated (List.mem_map_of_mem hcolumn) (by simp [columnSlots])
      exact hq (.identifier column.1) (by simp [Sql.slots, hmem])
    | insert | selectAll | select | delete => cases htype
  have htable := h _ _ _ hname
  rcases hrest with ⟨row, htype, hrow, heq⟩ | heq
  · rw [heq]
    refine h.update ⟨htable.name, htable.columns, fun row' hrow' => ?_⟩
    rcases Multiset.mem_cons.mp hrow' with rfl | hrow'
    · refine ⟨rowOk_typedRow hrow (hfits htype _ hname _ hrow), quote_not_mem_typedRow hrow ?_⟩
      intro s hs
      exact hq (.value s) (Sql.value_mem_slots.mpr (List.mem_append_left _ hs))
    · exact htable.rows row' hrow'
  · rw [heq]
    refine h.update ⟨htable.name, htable.columns, fun row hrow => ?_⟩
    exact htable.rows row (Multiset.mem_of_le (Multiset.filter_le _ _) hrow)

/-- Every line keeps the tables legible. -/
theorem Legible.line {D : Database} (h : D.Legible) {input : Str} (hfits : D.StorableLine input) :
    (D.line input).1.Legible := by
  unfold Database.line
  unfold StorableLine at hfits
  split
  · exact h
  split
  · exact h
  split
  · exact h
  cases hparse : parse (Lexer.handleInput input) with
  | error e => exact h
  | ok r =>
    obtain ⟨stmt, rest⟩ := r
    rw [hparse] at hfits
    obtain ⟨q, rfl, hq⟩ := legible_of_parse hparse
    exact h.exec hq hfits

end Database

/-! ## The dump of a table -/

/-- A column type as it is written. -/
def DataType.sqlType : DataType → SqlType
  | .int => .int
  | .text => .text

/-- The columns of a schema as they are written. -/
def columnsOf (schema : Schema) : List (Str × SqlType) :=
  schema.map fun col => (col.name, col.type.sqlType)

/-- The `INSERT` of a row. -/
def insertRow (name : Str) (row : Tuple) : Sql := .insert name (row.map Value.toString)

/-- The statements that restore a table from its rows. -/
def dump (name : Str) (schema : Schema) (rows : List Tuple) : List Str :=
  (Sql.createTable name (columnsOf schema)).text :: rows.map fun row => (insertRow name row).text

theorem schemaOf_columnsOf (name : Str) (schema : Schema) :
    Engine.schemaOf (Sql.createTable name (columnsOf schema)).statement.columns = schema := by
  simp only [Sql.statement, columnsOf, Engine.schemaOf, List.map_map]
  conv_rhs => rw [← List.map_id schema]
  refine List.map_congr_left fun col _ => ?_
  obtain ⟨name, type⟩ := col
  cases type <;> rfl

/-- A statement is none of the lines that the loop handles itself. -/
theorem ne_of_parse {input : Str} {r : Statement × List Token}
    (h : parse (Lexer.handleInput input) = .ok r) :
    ¬ IsExit input ∧ input ≠ [] ∧ input ≠ lit ".help" := by
  have hfail : ∀ other ∈ [lit ".exit", lit "quit", lit "exit", [], lit ".help"],
      (parse (Lexer.handleInput other)).isOk = false := by decide +kernel
  have hne : ∀ other ∈ [lit ".exit", lit "quit", lit "exit", [], lit ".help"], input ≠ other := by
    rintro other hother rfl
    have hother := hfail _ hother
    rw [h] at hother
    cases hother
  refine ⟨?_, hne _ (by simp), hne _ (by simp)⟩
  rintro (heq | heq | heq) <;> exact hne _ (by simp) heq

section Lines

variable {input : Str} {stmt : Statement} {rest : List Token}

theorem Database.line_of_parse (h : parse (Lexer.handleInput input) = .ok (stmt, rest))
    (D : Database) : D.line input = ((D.exec stmt).1, .answered (D.exec stmt).2) := by
  obtain ⟨hexit, hnil, hhelp⟩ := ne_of_parse h
  rw [Database.line, if_neg hexit, if_neg hnil, if_neg hhelp, h]

theorem Engine.line_of_parse (h : parse (Lexer.handleInput input) = .ok (stmt, rest))
    (db : Engine) : db.line input = (step db stmt).map fun r => (r.1, .ran r.2) := by
  obtain ⟨hexit, hnil, hhelp⟩ := ne_of_parse h
  have htext : parseText input = .ok (.ok stmt) := by rw [parseText, h]
  have hrun : (executeText input).run db = (execute stmt).run db := by
    rw [executeText, Program.run_bind_ok (Program.run_lift_eq_ok.mpr ⟨htext, rfl⟩)]
  rw [line, if_neg hexit, if_neg hnil, if_neg hhelp, hrun, step]
  rcases (execute stmt).run db with ⟨e | reply, db'⟩ <;> rfl

end Lines

variable {name : Str} {schema : Schema} {rows : Multiset Tuple} {row : Tuple}

theorem legible_commaSeparated {es : List (List Slot)} (h : ∀ e ∈ es, ∀ s ∈ e, s.Legible) :
    ∀ s ∈ commaSeparated es, s.Legible := by
  intro s hs
  rcases of_mem_commaSeparated hs with rfl | ⟨e, he, hs⟩
  · show TokenType.comma ∈ _
    decide
  · exact h e he s hs

theorem legible_keyword {type : TokenType}
    (h : type ∈ Lexer.keywords.map Prod.snd ++ Lexer.symbols.map Prod.snd) :
    (Slot.keyword type).Legible := h

namespace Legible

theorem parse_create (h : Legible name schema rows) :
    parse (Lexer.handleInput (Sql.createTable name (columnsOf schema)).text) =
      .ok ((Sql.createTable name (columnsOf schema)).statement, [⟨.eof, []⟩]) := by
  have hcolumns : ∀ s ∈ commaSeparated ((columnsOf schema).map columnSlots), s.Legible := by
    refine legible_commaSeparated fun e he s hs => ?_
    obtain ⟨c, hc, rfl⟩ := List.mem_map.mp he
    obtain ⟨col, hcol, rfl⟩ := List.mem_map.mp hc
    rcases List.mem_pair.mp hs with rfl | rfl
    · exact h.columns col hcol
    · have htypes : ∀ t : DataType, (Slot.keyword t.sqlType.keyword).Legible := by
        rintro (_ | _) <;> exact legible_keyword (by decide)
      exact htypes col.type
  refine Sql.parse_text ?_
  simp only [Sql.slots, List.cons_append, List.nil_append, List.forall_mem_cons,
    List.forall_mem_append, List.not_mem_nil, false_imp_iff, implies_true, and_true]
  exact ⟨legible_keyword (by decide), legible_keyword (by decide), h.name,
    legible_keyword (by decide), hcolumns, legible_keyword (by decide)⟩

theorem parse_insert (h : Legible name schema rows) (hrow : row ∈ rows) :
    parse (Lexer.handleInput (insertRow name row).text) =
      .ok ((insertRow name row).statement, [⟨.eof, []⟩]) := by
  have hvalues : ∀ s ∈ commaSeparated ((row.map Value.toString).map fun v => [Slot.value v]),
      s.Legible := by
    refine legible_commaSeparated fun e he s hs => ?_
    obtain ⟨text, htext, rfl⟩ := List.mem_map.mp he
    obtain ⟨v, hv, rfl⟩ := List.mem_map.mp htext
    obtain rfl := List.mem_singleton.mp hs
    exact (h.rows row hrow).2 v hv
  refine Sql.parse_text ?_
  simp only [insertRow, Sql.slots, List.cons_append, List.nil_append, List.forall_mem_cons,
    List.forall_mem_append, List.not_mem_nil, false_imp_iff, implies_true, and_true]
  exact ⟨legible_keyword (by decide), legible_keyword (by decide), h.name,
    legible_keyword (by decide), legible_keyword (by decide), hvalues, legible_keyword (by decide)⟩

theorem parse_selectAll (h : Legible name schema rows) :
    parse (Lexer.handleInput (Sql.selectAll name none).text) =
      .ok (Engine.selectAll name, [⟨.eof, []⟩]) := by
  refine Sql.parse_text ?_
  simp only [Sql.slots, filterSlots, List.append_nil, List.forall_mem_cons, List.not_mem_nil,
    false_imp_iff, implies_true, and_true]
  exact ⟨legible_keyword (by decide), legible_keyword (by decide), legible_keyword (by decide),
    h.name⟩

/-- The `INSERT` of a row adds the row. -/
theorem line_insert {D : Database} (h : Legible name schema rows) (hrow : row ∈ rows)
    {present : Multiset Tuple} (hname : D name = some (schema, present)) :
    D.line (insertRow name row).text =
      (Function.update D name (some (schema, row ::ₘ present)), .answered .inserted) ∧
    D.StorableLine (insertRow name row).text := by
  have hparse := h.parse_insert hrow
  obtain ⟨hok, -⟩ := h.rows row hrow
  have htyped := typedRow_toString hok.types
  refine ⟨?_, ?_⟩
  · have hexec : D.exec (insertRow name row).statement =
        (Function.update D name (some (schema, row ::ₘ present)), .inserted) := by
      simp only [Database.exec, insertRow, Sql.statement, hname, htyped]
    rw [Database.line_of_parse hparse, hexec]
  · rw [Database.StorableLine, hparse]
    intro _ e he row' hrow'
    obtain rfl := Option.some.inj (hname.symm.trans he)
    obtain rfl := Option.some.inj (htyped.symm.trans hrow')
    exact hok.fits

/-- The statements of a dump behind the first add the rows. -/
theorem specRun_inserts : ∀ {new : List Tuple} {D : Database} {present : Multiset Tuple},
    Legible name schema new → D name = some (schema, present) →
    Machine.specRun Database.line D (new.map fun row => (insertRow name row).text) =
      (Function.update D name (some (schema, new + present)),
        List.replicate new.length (.answered .inserted)) ∧
    Machine.Along Database.StorableLine Database.line D
      (new.map fun row => (insertRow name row).text)
  | [], D, present, _, hname => by
    refine ⟨?_, .nil⟩
    have hsame : Function.update D name (some (schema, present)) = D := by
      rw [← hname]
      exact Function.update_eq_self name D
    simp [Machine.specRun, hsame]
  | row :: new, D, present, h, hname => by
    obtain ⟨hline, hfits⟩ := h.line_insert (Multiset.mem_coe.mpr List.mem_cons_self) hname
    have hnew : Legible name schema new := ⟨h.name, h.columns, fun row' hrow' =>
      h.rows row' (Multiset.mem_coe.mpr (List.mem_cons_of_mem _ (Multiset.mem_coe.mp hrow')))⟩
    obtain ⟨hrun, halong⟩ := specRun_inserts hnew (Function.update_self name
      (some (schema, row ::ₘ present)) D)
    have hbag : (new : Multiset Tuple) + row ::ₘ present = (row :: new : List Tuple) + present := by
      rw [← Multiset.cons_coe, Multiset.add_cons, Multiset.cons_add]
    rw [Function.update_idem, hbag] at hrun
    refine ⟨?_, .cons hfits ?_⟩
    · rw [List.map_cons, Machine.specRun, hline, hrun]
      rfl
    · rw [hline]
      exact halong

/-- The dump of a table makes the table, where there is none of its name. -/
theorem specRun_dump {new : List Tuple} (h : Legible name schema new) (D : Database)
    (hname : D name = none) :
    Machine.specRun Database.line D (dump name schema new) =
      (Function.update D name (some (schema, new)),
        .answered (.created schema.columnCount) ::
          List.replicate new.length (.answered .inserted)) ∧
    Machine.Along Database.StorableLine Database.line D (dump name schema new) := by
  have hparse := h.parse_create
  have hexec : D.exec (Sql.createTable name (columnsOf schema)).statement =
      (Function.update D name (some (schema, 0)), .created schema.columnCount) := by
    have hcolumns := schemaOf_columnsOf name schema
    simp only [Database.exec, Sql.statement, hname] at hcolumns ⊢
    rw [hcolumns]
  have hline := Database.line_of_parse hparse D
  rw [hexec] at hline
  obtain ⟨hrun, halong⟩ := h.specRun_inserts (Function.update_self name (some (schema, 0)) D)
  rw [Function.update_idem, add_zero] at hrun
  refine ⟨?_, .cons ?_ ?_⟩
  · rw [dump, Machine.specRun, hline, hrun]
  · rw [Database.StorableLine, hparse]
    intro htype
    cases htype
  · rw [hline]
    exact halong

end Legible

/-! ## Restoring a table -/

namespace Engine

/-- The tables after a session can be written down. -/
theorem legible_of_run {lines : List Str}
    (hfits : Machine.Along Database.StorableLine Database.line (fun _ => none) lines) :
    (Machine.specRun Database.line (fun _ => none) lines).1.Legible :=
  hfits.invariant (fun _ _ h hline => h.line hline) (fun _ _ _ h => by cases h)

/-- `SELECT *` as a line. -/
theorem line_selectAll {T : Tables} {db : Engine} {name : Str} {t : Table} {rows : Multiset Tuple}
    (h : Holds T db) (ht : T name = some t) (hlegible : Legible name t.schema rows) :
    ∃ db', db.line (Sql.selectAll name none).text =
      .ok (db', .ran (.rows (t.schema.map Column.name) (t.rows.map Prod.snd))) := by
  obtain ⟨db', hstep⟩ := step_selectAll h ht
  refine ⟨db', ?_⟩
  rw [line_of_parse hlegible.parse_selectAll, hstep]
  rfl

theorem ran_created {turn : Turn} {columns : ℕ}
    (h : turn.outcome = .answered (.created columns)) : turn = .ran (.created columns) := by
  cases turn with
  | ran reply => cases reply <;> simp_all [Turn.outcome, Reply.answer]
  | goodbye | nothing | help => cases h

theorem ran_inserted {turn : Turn} (h : turn.outcome = .answered .inserted) :
    turn = .ran .inserted := by
  cases turn with
  | ran reply => cases reply <;> simp_all [Turn.outcome, Reply.answer]
  | goodbye | nothing | help => cases h

theorem ran_replicate : ∀ {n : ℕ} {turns : List Turn},
    List.Forall₂ (fun turn outcome => turn.outcome = outcome) turns
      (List.replicate n (.answered .inserted)) → turns = List.replicate n (.ran .inserted)
  | 0, _, .nil => rfl
  | n + 1, _, .cons hturn hturns => by
    rw [ran_inserted hturn, ran_replicate hturns]
    rfl

/-- After every session of lines whose inserted rows fit a page, `SELECT *` prints the rows of a
table, and in a new process the statements written from what it prints, in which no disk operation
fails and every call of a B+ tree returns, are all accepted and leave a table that prints the same
rows. -/
theorem dump_restores (disk disk' : Str → Option File) (logMgr logMgr' : LogManager)
    {lines : List Str} {db : Engine} {turns : List Turn} {name : Str} {info : TableInfo}
    (hfits : Machine.Along Database.StorableLine Database.line (fun _ => none) lines)
    (hrun : Machine.run line (Engine.new disk logMgr) lines = .ok (db, turns))
    (hinfo : db.catalog.getTable name = some info) :
    ∃ db₁ found, db.line (Sql.selectAll name none).text =
        .ok (db₁, .ran (.rows (info.schema.map Column.name) found)) ∧
      ∀ restore, restore = dump name info.schema found ++ [(Sql.selectAll name none).text] →
        Machine.run line (Engine.new disk' logMgr') restore ≠ .error .io →
        Machine.run line (Engine.new disk' logMgr') restore ≠ .error .index →
        ∃ db' found', Machine.run line (Engine.new disk' logMgr') restore =
          .ok (db', .ran (.created info.schema.columnCount) ::
            (List.replicate found.length (.ran .inserted) ++
              [.ran (.rows (info.schema.map Column.name) found')])) ∧ found'.Perm found := by
  obtain ⟨T, hT, hdatabase⟩ := Machine.related_of_run line_refines
    (represents_new disk logMgr) hfits hrun
  obtain ⟨t, info', ht, hinfo', hschema⟩ := (hT.getTable name).resolve_left fun hnone => by
    rw [hinfo] at hnone
    cases hnone.2
  obtain rfl : info' = info := Option.some.inj (hinfo'.symm.trans hinfo)
  have hlegible : Legible name t.schema (t.rows.map Prod.snd : List Tuple) := by
    refine legible_of_run hfits name t.schema _ ?_
    rw [← hdatabase, Tables.database, ht]
    rfl
  obtain ⟨db₁, hselect⟩ := line_selectAll hT ht hlegible
  rw [hschema]
  refine ⟨db₁, _, hselect, ?_⟩
  rintro restore rfl hio hindex
  obtain ⟨hspec, halong⟩ := hlegible.specRun_dump (fun _ => none) rfl
  rcases Machine.run_refines line_refines _ _ _ (represents_new disk' logMgr') halong with
    ⟨e, he, herror⟩ | ⟨db', turns', hok, ⟨T', hT', hdatabase'⟩, houtcomes⟩
  · have hfault := Machine.run_append_error herror [(Sql.selectAll name none).text]
    rcases he with rfl | rfl
    · exact absurd hfault hio
    · exact absurd hfault hindex
  · simp only [hspec] at hdatabase' houtcomes
    have hname : (T' name).map (fun t => (t.schema, t.bag)) =
        some (t.schema, ((t.rows.map Prod.snd : List Tuple) : Multiset Tuple)) :=
      (congrFun hdatabase' name).trans (Function.update_self ..)
    obtain ⟨t', ht', hrestored⟩ := Option.map_eq_some_iff.mp hname
    obtain ⟨hschema', hbag⟩ := Prod.mk.inj hrestored
    have hlegible' : Legible name t'.schema (t.rows.map Prod.snd : List Tuple) := by
      rw [hschema']
      exact hlegible
    obtain ⟨db'', hselect'⟩ := line_selectAll hT' ht' hlegible'
    have hturns : turns' = .ran (.created t.schema.columnCount) ::
        List.replicate (t.rows.map Prod.snd).length (.ran .inserted) := by
      obtain _ | ⟨hcreated, hinserted⟩ := houtcomes
      rw [ran_created hcreated, ran_replicate hinserted]
    refine ⟨db'', t'.rows.map Prod.snd, ?_, Quotient.exact hbag⟩
    rw [Machine.run_append_ok hok, Machine.run_cons_ok hselect', hturns, hschema']
    rfl

/-- A row with a negative integer and a text that is not a word. -/
theorem dump_restores_quoted :
    let row : Tuple := [.int (-5), .text (lit "of 3")]
    let restore := dump (lit "t") [⟨lit "id", .int⟩, ⟨lit "name", .text⟩] [row] ++
      [(Sql.selectAll (lit "t") none).text]
    ∃ db', Machine.run line (Engine.new (fun _ => none) ⟨[], [], 1⟩) restore =
      .ok (db', [.ran (.created 2), .ran .inserted,
        .ran (.rows [lit "id", lit "name"] [row])]) := by
  intro row restore
  have hsession : ((Machine.run line (Engine.new (fun _ => none) ⟨[], [], 1⟩)
      [lit "CREATE TABLE t (id INT, name TEXT)", lit "INSERT INTO t VALUES ('-5', 'of 3')"]).toOption.bind
        fun r => (r.1.catalog.getTable (lit "t")).map fun info =>
          (info.schema, (r.1.line (Sql.selectAll (lit "t") none).text).toOption.map Prod.snd)) =
      some ([⟨lit "id", .int⟩, ⟨lit "name", .text⟩],
        some (.ran (.rows [lit "id", lit "name"] [row]))) := by
    decide +kernel
  obtain ⟨⟨db, turns⟩, hrun, hsession⟩ := Option.bind_eq_some_iff.mp hsession
  obtain ⟨info, hinfo, hsession⟩ := Option.map_eq_some_iff.mp hsession
  obtain ⟨hschema, hsession⟩ := Prod.mk.inj hsession
  have hdump := dump_restores (fun _ => none) (fun _ => none) ⟨[], [], 1⟩ ⟨[], [], 1⟩
    (by decide +kernel) (Machine.toOption_eq_some.mp hrun) hinfo
  rw [hschema] at hdump
  obtain ⟨db₁, found, hselect, hrestore⟩ := hdump
  rw [hselect] at hsession
  obtain rfl : found = [row] := by simpa [Except.toOption] using hsession
  obtain ⟨db', found', hok, hperm⟩ := hrestore _ rfl (Machine.ne_error_of_isOk (by decide +kernel) _)
    (Machine.ne_error_of_isOk (by decide +kernel) _)
  rw [List.perm_singleton.mp hperm] at hok
  exact ⟨db', hok⟩

end Engine

end MiniDB
