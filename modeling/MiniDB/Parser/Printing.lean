import MiniDB.Parser.Rendering
import MiniDB.Parser.Tokens

/-!
# Printing statements

`statementToString` writes the values of a statement without quotes. What it prints for a statement
that the parser has accepted is SQL again, and parses to the same statement, exactly when every value
is a word or a number as it stands.

## Main definitions

* `statementToString`: the text of a statement
* `Bare`: the values that need no quotes
* `Reads text slots`: the text is read as these slots, whatever comes behind it

## Main results

* `Sql.written_statement`: the lexemes of the text
* `reparse_iff`: the statements that parse back to themselves
-/

namespace MiniDB.Parser

open Lexer

/-! ## The text of a statement -/

/-- The column definitions, each on a line of its own, with a comma between them. -/
def columnLines : List ColumnDef → Str
  | [] => []
  | [c] => lit "  " ++ c.name ++ lit " " ++ c.type ++ lit "\n"
  | c :: cs => lit "  " ++ c.name ++ lit " " ++ c.type ++ lit ",\n" ++ columnLines cs

/-- The elements with a comma between them. -/
def listed : List Str → Str
  | [] => []
  | [v] => v
  | v :: vs => v ++ lit ", " ++ listed vs

/-- The condition of a statement, if it has one. -/
def conditionText (stmt : Statement) : Str :=
  if stmt.hasWhere then lit " WHERE " ++ stmt.where_.column ++ lit " = " ++ stmt.where_.value else []

/-- `statementToString`. -/
def statementToString (stmt : Statement) : Str :=
  match stmt.type with
  | .createTable =>
    lit "CREATE TABLE " ++ stmt.tableName ++ lit " (\n" ++ columnLines stmt.columns ++ lit ")"
  | .insert =>
    lit "INSERT INTO " ++ stmt.tableName ++ lit " VALUES (" ++ listed stmt.values ++ lit ")"
  | .select =>
    lit "SELECT " ++ (if stmt.selectAll then lit "*" else listed stmt.selectColumns) ++
      lit " FROM " ++ stmt.tableName ++ conditionText stmt
  | .delete => lit "DELETE FROM " ++ stmt.tableName ++ conditionText stmt

/-- The values of a statement. -/
def literals (stmt : Statement) : List Str :=
  stmt.values ++ if stmt.hasWhere then [stmt.where_.value] else []

/-- The value is a number or an identifier without quotes. -/
def Bare (v : Str) : Prop := Spelled ⟨.number, v⟩ ∨ Spelled ⟨.identifier, v⟩

/-! ## Texts and slots -/

/-- The text of a keyword or a symbol. -/
def keywordText (type : TokenType) : Str :=
  match keywords.find? fun k => k.2 = type with
  | some k => lit k.1
  | none => ((symbols.find? fun k => k.2 = type).map fun k => [k.1]).getD []

/-- The token that a slot is printed as. -/
def Slot.token : Slot → Token
  | .keyword type => ⟨type, keywordText type⟩
  | .identifier text => ⟨.identifier, text⟩
  | .value text => if text.all isDigit then ⟨.number, text⟩ else ⟨.identifier, text⟩

/-- The lexeme of a token that is written with its text. -/
def lexeme (t : Token) : Lexeme := ⟨t, t.text⟩

/-- The text is read as the slots, whatever comes behind it. -/
def Reads (text : Str) (slots : List Slot) : Prop := ∀ rest ls, Written rest ls →
  Written (text ++ rest) (slots.map (fun s => lexeme s.token) ++ ls)

namespace Reads

variable {x y : Str} {xs ys : List Slot} {s : Slot}

theorem nil : Reads [] [] := fun _ _ h => h

theorem append (hx : Reads x xs) (hy : Reads y ys) : Reads (x ++ y) (xs ++ ys) := by
  intro rest ls h
  rw [List.append_assoc, List.map_append, List.append_assoc]
  exact hx _ _ (hy _ _ h)

theorem space {c : UInt8} (hc : isSpace c = true) (hy : Reads y ys) : Reads (c :: y) ys :=
  fun rest ls h => .round (.space hc) (hy rest ls h)

theorem symbol {c : UInt8} {type : TokenType} (hc : (c, type) ∈ symbols) (hy : Reads y ys)
    (htext : keywordText type = [c]) : Reads (c :: y) (.keyword type :: ys) := by
  intro rest ls h
  have hnot : type ≠ .string := by
    have hnone : ∀ k ∈ symbols, k.2 ≠ .string := by decide
    exact hnone _ hc
  have htype : symbolType c = some type := by
    have hall : ∀ k ∈ symbols, symbolType k.1 = some k.2 := by decide
    exact hall _ hc
  have htakes : Takes (some ⟨type, [c]⟩) [c] (y ++ rest) := .symbol htype
  rw [List.map_cons, lexeme, Slot.token, Token.text, if_neg hnot, htext]
  exact .round htakes (hy rest ls h)

/-- A word or a number, and a byte behind it that does not continue it. -/
theorem word (hs : Spelled s.token) {c : UInt8} (hc : isWordByte c = false)
    (hy : Reads (c :: y) ys) : Reads (s.token.text ++ c :: y) (s :: ys) := by
  intro rest ls h
  have hstop : Stops isWordByte (c :: (y ++ rest)) := by
    intro d tl heq
    rw [← (List.cons.inj heq).1]
    exact hc
  rw [List.append_assoc]
  exact .round (hs.takes hstop) (hy rest ls h)

theorem identifier {name : Str} (hname : Spelled ⟨.identifier, name⟩) {c : UInt8}
    (hc : isWordByte c = false) (hy : Reads (c :: y) ys) :
    Reads (name ++ c :: y) (.identifier name :: ys) := by
  have hs : Spelled (Slot.identifier name).token := hname
  exact word hs hc hy

theorem keyword {name : String} {type : TokenType} (hmem : (name, type) ∈ keywords) {c : UInt8}
    (hc : isWordByte c = false) (hy : Reads (c :: y) ys) :
    Reads (lit name ++ c :: y) (.keyword type :: ys) := by
  have hall : ∀ k ∈ keywords, keywordText k.2 = lit k.1 ∧ toUpper (lit k.1) = lit k.1 ∧
      k.2 ≠ .string := by decide
  obtain ⟨htext, hupper, htype⟩ := hall _ hmem
  have hs : Spelled (Slot.keyword type).token := by
    rw [Slot.token, htext]
    exact .keyword hmem hupper
  have hword : (Slot.keyword type).token.text = lit name := by
    rw [Slot.token, Token.text, if_neg htype, htext]
  exact hword ▸ word hs hc hy

end Reads

theorem commaSeparated_cons (e : List Slot) (es : List (List Slot)) (h : es ≠ []) :
    commaSeparated (e :: es) = e ++ .keyword .comma :: commaSeparated es := by
  obtain ⟨e', es, rfl⟩ := List.exists_cons_of_ne_nil h
  simp [commaSeparated, List.intercalate]

theorem mem_commaSeparated {s : Slot} : ∀ {es : List (List Slot)} {e : List Slot}, e ∈ es → s ∈ e →
    s ∈ commaSeparated es
  | [e'], e, he, hs => by
    obtain rfl := List.mem_singleton.mp he
    simpa [commaSeparated] using hs
  | e' :: e'' :: es, e, he, hs => by
    rw [commaSeparated_cons e' _ (by simp)]
    rcases List.mem_cons.mp he with rfl | he
    · exact List.mem_append_left _ hs
    · exact List.mem_append_right _ (List.mem_cons_of_mem _ (mem_commaSeparated he hs))

theorem Reads.comma {y : Str} {ys : List Slot} (hy : Reads y ys) :
    Reads (44 :: y) (.keyword .comma :: ys) := .symbol (by decide) hy (by decide)

/-- A list of names or values, and a byte behind it that does not continue the last one. -/
theorem reads_listed {slot : Str → Slot} {c : UInt8} {y : Str} {ys : List Slot}
    (hc : isWordByte c = false) (hy : Reads (c :: y) ys) : ∀ {vs : List Str},
    (∀ v ∈ vs, Spelled (slot v).token ∧ (slot v).token.text = v) →
    Reads (listed vs ++ c :: y) (commaSeparated (vs.map fun v => [slot v]) ++ ys)
  | [], _ => hy
  | [v], h => by
    obtain ⟨hs, htext⟩ := h v List.mem_cons_self
    have hread := Reads.word hs hc hy
    rw [htext] at hread
    exact hread
  | v :: v' :: vs, h => by
    obtain ⟨hv, hrest⟩ := List.forall_mem_cons.mp h
    have ih := reads_listed hc hy hrest
    have hread := Reads.word hv.1 (by decide : isWordByte 44 = false)
      (Reads.comma (ih.space (by decide : isSpace 32 = true)))
    rw [hv.2] at hread
    have htext : listed (v :: v' :: vs) ++ c :: y =
        v ++ 44 :: 32 :: (listed (v' :: vs) ++ c :: y) := by
      show v ++ lit ", " ++ listed (v' :: vs) ++ c :: y = _
      rw [show lit ", " = [44, 32] by decide]
      simp
    rw [htext, List.map_cons, commaSeparated_cons _ _ (by simp)]
    exact hread

theorem SqlType.mem_keywords (type : SqlType) : ∃ name, (name, type.keyword) ∈ keywords ∧
    type.name = lit name := by
  cases type with
  | int => exact ⟨"INT", by decide, rfl⟩
  | text => exact ⟨"TEXT", by decide, rfl⟩

/-- The definition of a column, and a byte behind it. -/
theorem reads_column {column : Str × SqlType} (hname : Spelled ⟨.identifier, column.1⟩) {c : UInt8}
    {y : Str} {ys : List Slot} (hc : isWordByte c = false) (hy : Reads (c :: y) ys) :
    Reads (lit "  " ++ column.1 ++ lit " " ++ column.2.name ++ c :: y) (columnSlots column ++ ys) := by
  obtain ⟨name, hmem, htype⟩ := column.2.mem_keywords
  have hspace : isSpace 32 = true := by decide
  have hkeyword := (Reads.keyword hmem hc hy).space hspace
  have hread := ((Reads.identifier hname (by decide) hkeyword).space hspace).space hspace
  rw [htype, show lit "  " = [32, 32] by decide, show lit " " = [32] by decide]
  simpa [columnSlots] using hread

theorem reads_columnLines : ∀ {columns : List (Str × SqlType)},
    (∀ column ∈ columns, Spelled ⟨.identifier, column.1⟩) →
    Reads (columnLines (columns.map fun column => ⟨column.1, column.2.name⟩))
      (commaSeparated (columns.map columnSlots))
  | [], _ => .nil
  | [column], h => by
    have hend : Reads [10] [] := Reads.nil.space (by decide)
    have hread := reads_column (h column List.mem_cons_self) (by decide) hend
    rw [List.append_nil] at hread
    exact hread
  | column :: column' :: columns, h => by
    obtain ⟨hcolumn, hrest⟩ := List.forall_mem_cons.mp h
    have ih := reads_columnLines hrest
    have hread := reads_column hcolumn (by decide : isWordByte 44 = false)
      (Reads.comma (ih.space (by decide : isSpace 10 = true)))
    have htext : columnLines ((column :: column' :: columns).map fun column =>
        (⟨column.1, column.2.name⟩ : ColumnDef)) = lit "  " ++ column.1 ++ lit " " ++
          column.2.name ++ 44 :: 10 :: columnLines ((column' :: columns).map fun column =>
            ⟨column.1, column.2.name⟩) := by
      show lit "  " ++ column.1 ++ lit " " ++ column.2.name ++ lit ",\n" ++ columnLines _ = _
      rw [show lit ",\n" = [44, 10] by decide]
      simp
    have hslots : commaSeparated ((column :: column' :: columns).map columnSlots) = columnSlots column ++
        .keyword .comma :: commaSeparated ((column' :: columns).map columnSlots) :=
      commaSeparated_cons _ _ (by simp)
    rw [htext, hslots]
    exact hread

/-! ## Statements -/

theorem text_value (v : Str) : (Slot.value v).token.text = v := by
  unfold Slot.token
  dsimp only
  split <;> rfl

/-- A name at the end, with the condition behind it. -/
theorem written_condition {stmt : Statement} {name : Str} {filter : Option WhereClause}
    (hname : Spelled ⟨.identifier, name⟩) (hfilter : ∀ s ∈ filterSlots filter, Spelled s.token)
    (hwhere : stmt.hasWhere = filter.isSome) (hclause : stmt.where_ = filter.getD ⟨[], []⟩) :
    Written (name ++ conditionText stmt)
      ((.identifier name :: filterSlots filter).map fun s => lexeme s.token) := by
  have hend : ∀ {s : Slot}, Spelled s.token → Written s.token.text [lexeme s.token] := by
    intro s hs
    have htakes : Takes (some s.token) s.token.text [] := hs.takes fun c tl h => by cases h
    have hround := Written.round htakes .nil
    rw [List.append_nil] at hround
    exact hround
  cases filter with
  | none =>
    have hs : Spelled (Slot.identifier name).token := hname
    have htext : conditionText stmt = [] := by rw [conditionText, hwhere]; rfl
    rw [htext, List.append_nil]
    exact hend hs
  | some wc =>
    have hcolumn : Spelled ⟨.identifier, wc.column⟩ := hfilter (.identifier wc.column) (by
      simp [filterSlots])
    have hvalue := hend (hfilter (.value wc.value) (by simp [filterSlots]))
    have hspace : isSpace 32 = true := by decide
    have hword : isWordByte 32 = false := by decide
    have hwhere' : ("WHERE", TokenType.where) ∈ keywords := by decide
    have hequals : Reads (61 :: [32]) [.keyword .equals] :=
      .symbol (by decide) (Reads.nil.space hspace) (by decide)
    have hread := Reads.identifier hname hword ((Reads.keyword hwhere' hword
      ((Reads.identifier hcolumn hword (hequals.space hspace)).space hspace)).space hspace)
    have hwritten := hread _ _ hvalue
    rw [text_value] at hwritten
    have htext : conditionText stmt =
        32 :: (lit "WHERE" ++ 32 :: (wc.column ++ 32 :: 61 :: 32 :: wc.value)) := by
      rw [conditionText, hwhere, hclause, show lit " WHERE " = 32 :: (lit "WHERE" ++ [32]) by decide,
        show lit " = " = [32, 61, 32] by decide]
      simp
    rw [htext]
    simpa [filterSlots] using hwritten

/-- Two keywords, each with a space behind it. -/
theorem reads_two {first second : String × TokenType} (h₁ : first ∈ keywords)
    (h₂ : second ∈ keywords) {y : Str} {ys : List Slot} (hy : Reads y ys) :
    Reads (lit first.1 ++ 32 :: (lit second.1 ++ 32 :: y))
      (.keyword first.2 :: .keyword second.2 :: ys) := by
  have hspace : isSpace 32 = true := by decide
  have hword : isWordByte 32 = false := by decide
  exact .keyword h₁ hword (.space hspace (.keyword h₂ hword (hy.space hspace)))

namespace Sql

theorem written_createTable (name : Str) (columns : List (Str × SqlType))
    (h : ∀ s ∈ (createTable name columns).slots, Spelled s.token) :
    Written (statementToString (createTable name columns).statement)
      ((createTable name columns).slots.map fun s => lexeme s.token) := by
  have hspace : isSpace 32 = true := by decide
  have hword : isWordByte 32 = false := by decide
  have hend : Reads [41] [.keyword .rparen] := .symbol (by decide) .nil (by decide)
  have hname : Spelled ⟨.identifier, name⟩ := h (.identifier name) (by simp [slots])
  have hcolumns : Reads (columnLines (columns.map fun column => ⟨column.1, column.2.name⟩) ++ [41])
      (commaSeparated (columns.map columnSlots) ++ [.keyword .rparen]) :=
    (reads_columnLines fun column hcolumn => h (.identifier column.1) (by
      have hmem : Slot.identifier column.1 ∈ commaSeparated (columns.map columnSlots) :=
        mem_commaSeparated (List.mem_map_of_mem hcolumn) (by simp [columnSlots])
      simp [slots, hmem])).append hend
  have hopen : Reads (32 :: 40 :: 10 ::
      (columnLines (columns.map fun column => ⟨column.1, column.2.name⟩) ++ [41]))
      (.keyword .lparen :: (commaSeparated (columns.map columnSlots) ++ [.keyword .rparen])) :=
    .space hspace (.symbol (by decide) (hcolumns.space (by decide)) (by decide))
  have hread := reads_two (by decide : ("CREATE", TokenType.create) ∈ keywords)
    (by decide : ("TABLE", TokenType.table) ∈ keywords) (Reads.identifier hname hword hopen)
  have htext : statementToString (createTable name columns).statement = lit "CREATE" ++
      32 :: (lit "TABLE" ++ 32 :: (name ++ 32 :: 40 :: 10 ::
        (columnLines (columns.map fun column => ⟨column.1, column.2.name⟩) ++ [41]))) := by
    rw [statementToString, show lit "CREATE TABLE " = lit "CREATE" ++ 32 :: (lit "TABLE" ++ [32]) by
      decide, show lit " (\n" = [32, 40, 10] by decide, show lit ")" = [41] by decide]
    simp [statement]
  have hwritten := hread [] [] .nil
  rw [List.append_nil, List.append_nil, ← htext] at hwritten
  exact hwritten

theorem written_insert (name : Str) (values : List Str)
    (h : ∀ s ∈ (insert name values).slots, Spelled s.token) :
    Written (statementToString (insert name values).statement)
      ((insert name values).slots.map fun s => lexeme s.token) := by
  have hspace : isSpace 32 = true := by decide
  have hword : isWordByte 32 = false := by decide
  have hend : Reads [41] [.keyword .rparen] := .symbol (by decide) .nil (by decide)
  have hname : Spelled ⟨.identifier, name⟩ := h (.identifier name) (by simp [slots])
  have hvalues : Reads (listed values ++ 41 :: [])
      (commaSeparated (values.map fun value => [.value value]) ++ [.keyword .rparen]) := by
    refine reads_listed (by decide) hend fun v hv => ⟨h (.value v) ?_, text_value v⟩
    have hmem : Slot.value v ∈ commaSeparated (values.map fun value => [.value value]) :=
      mem_commaSeparated (List.mem_map_of_mem hv) (List.mem_singleton_self _)
    simp [slots, hmem]
  have hopen : Reads (32 :: (lit "VALUES" ++ 32 :: 40 :: (listed values ++ [41])))
      (.keyword .values :: .keyword .lparen ::
        (commaSeparated (values.map fun value => [.value value]) ++ [.keyword .rparen])) :=
    .space hspace (.keyword (by decide) hword
      (.space hspace (.symbol (by decide) hvalues (by decide))))
  have hread := reads_two (by decide : ("INSERT", TokenType.insert) ∈ keywords)
    (by decide : ("INTO", TokenType.into) ∈ keywords) (Reads.identifier hname hword hopen)
  have htext : statementToString (insert name values).statement = lit "INSERT" ++
      32 :: (lit "INTO" ++ 32 :: (name ++ 32 :: (lit "VALUES" ++ 32 :: 40 ::
        (listed values ++ [41])))) := by
    rw [statementToString, show lit "INSERT INTO " = lit "INSERT" ++ 32 :: (lit "INTO" ++ [32]) by
      decide, show lit " VALUES (" = 32 :: (lit "VALUES" ++ [32, 40]) by decide,
      show lit ")" = [41] by decide]
    simp [statement]
  have hwritten := hread [] [] .nil
  rw [List.append_nil, List.append_nil, ← htext] at hwritten
  exact hwritten

theorem written_selectAll (name : Str) (filter : Option WhereClause)
    (h : ∀ s ∈ (selectAll name filter).slots, Spelled s.token) :
    Written (statementToString (selectAll name filter).statement)
      ((selectAll name filter).slots.map fun s => lexeme s.token) := by
  have hspace : isSpace 32 = true := by decide
  have hword : isWordByte 32 = false := by decide
  have hfrom : Reads (lit "FROM" ++ 32 :: []) [.keyword .from] :=
    .keyword (by decide) hword (Reads.nil.space hspace)
  have hname : Spelled ⟨.identifier, name⟩ := h (.identifier name) (by simp [slots])
  have hcondition : Written (name ++ conditionText (selectAll name filter).statement)
      ((.identifier name :: filterSlots filter).map fun s => lexeme s.token) :=
    written_condition hname (fun s hs => h s (by simp [slots, hs])) rfl rfl
  have hstar : Reads (42 :: 32 :: (lit "FROM" ++ 32 :: [])) [.keyword .star, .keyword .from] :=
    .symbol (by decide) (hfrom.space hspace) (by decide)
  have hread := Reads.keyword (by decide : ("SELECT", TokenType.select) ∈ keywords) hword
    (hstar.space hspace)
  have htext : statementToString (selectAll name filter).statement =
      (lit "SELECT" ++ 32 :: 42 :: 32 :: (lit "FROM" ++ 32 :: [])) ++
        (name ++ conditionText (selectAll name filter).statement) := by
    rw [statementToString, show lit "SELECT " = lit "SELECT" ++ [32] by decide,
      show lit " FROM " = 32 :: (lit "FROM" ++ [32]) by decide, show lit "*" = [42] by decide]
    simp [statement]
  rw [htext]
  exact hread _ _ hcondition

theorem written_select (column : Str) (columns : List Str) (name : Str)
    (filter : Option WhereClause)
    (h : ∀ s ∈ (select column columns name filter).slots, Spelled s.token) :
    Written (statementToString (select column columns name filter).statement)
      ((select column columns name filter).slots.map fun s => lexeme s.token) := by
  have hspace : isSpace 32 = true := by decide
  have hword : isWordByte 32 = false := by decide
  have hfrom : Reads (lit "FROM" ++ 32 :: []) [.keyword .from] :=
    .keyword (by decide) hword (Reads.nil.space hspace)
  have hname : Spelled ⟨.identifier, name⟩ := h (.identifier name) (by simp [slots])
  have hcondition : Written (name ++ conditionText (select column columns name filter).statement)
      ((.identifier name :: filterSlots filter).map fun s => lexeme s.token) :=
    written_condition hname (fun s hs => h s (by simp [slots, hs])) rfl rfl
  have hcolumns : Reads (listed (column :: columns) ++ 32 :: (lit "FROM" ++ 32 :: []))
      (commaSeparated ((column :: columns).map fun column => [.identifier column]) ++
        [.keyword .from]) := by
    refine reads_listed hword (hfrom.space hspace) fun v hv => ⟨h (.identifier v) ?_, rfl⟩
    have hmem : Slot.identifier v ∈
        commaSeparated ((column :: columns).map fun column => [.identifier column]) :=
      mem_commaSeparated (List.mem_map_of_mem hv) (List.mem_singleton_self _)
    rw [slots]
    exact List.mem_cons_of_mem _ (List.mem_append_left _ hmem)
  have hread := Reads.keyword (by decide : ("SELECT", TokenType.select) ∈ keywords) hword
    (hcolumns.space hspace)
  have htext : statementToString (select column columns name filter).statement =
      (lit "SELECT" ++ 32 :: (listed (column :: columns) ++ 32 :: (lit "FROM" ++ 32 :: []))) ++
        (name ++ conditionText (select column columns name filter).statement) := by
    rw [statementToString, show lit "SELECT " = lit "SELECT" ++ [32] by decide,
      show lit " FROM " = 32 :: (lit "FROM" ++ [32]) by decide]
    simp [statement]
  have hwritten := hread _ _ hcondition
  rw [← htext] at hwritten
  simpa [slots] using hwritten

theorem written_delete (name : Str) (filter : Option WhereClause)
    (h : ∀ s ∈ (delete name filter).slots, Spelled s.token) :
    Written (statementToString (delete name filter).statement)
      ((delete name filter).slots.map fun s => lexeme s.token) := by
  have hname : Spelled ⟨.identifier, name⟩ := h (.identifier name) (by simp [slots])
  have hcondition : Written (name ++ conditionText (delete name filter).statement)
      ((.identifier name :: filterSlots filter).map fun s => lexeme s.token) :=
    written_condition hname (fun s hs => h s (by simp [slots, hs])) rfl rfl
  have hread := reads_two (by decide : ("DELETE", TokenType.delete) ∈ keywords)
    (by decide : ("FROM", TokenType.from) ∈ keywords) .nil
  have hwritten := hread _ _ hcondition
  rw [← List.append_assoc] at hwritten
  exact hwritten

/-- The text of a statement is written with its slots. -/
theorem written_statement (q : Sql) (h : ∀ s ∈ q.slots, Spelled s.token) :
    Written (statementToString q.statement) (q.slots.map fun s => lexeme s.token) := by
  cases q with
  | createTable name columns => exact written_createTable name columns h
  | insert name values => exact written_insert name values h
  | selectAll name filter => exact written_selectAll name filter h
  | select column columns name filter => exact written_select column columns name filter h
  | delete name filter => exact written_delete name filter h

end Sql

/-! ## The tokens of an input -/

end MiniDB.Parser

namespace MiniDB.Lexer

theorem Written.exists_takes {input : Str} {ls : List Lexeme} (h : Written input ls) {l : Lexeme}
    (hl : l ∈ ls) : l.text ⊆ input ∧ ∃ rest, Takes (some l.token) l.text rest := by
  induction h with
  | nil => cases hl
  | @round tok text rest ls htakes _ ih =>
    rcases List.mem_append.mp hl with hl | hl
    · obtain ⟨t, rfl, rfl⟩ : ∃ t, tok = some t ∧ (⟨t, text⟩ : Lexeme) = l := by simpa using hl
      exact ⟨List.subset_append_left _ _, rest, htakes⟩
    · obtain ⟨hsub, htakes⟩ := ih hl
      exact ⟨fun c hc => List.mem_append_right _ (hsub hc), htakes⟩

/-- A number or an identifier that was taken from an input can be written down. -/
theorem Takes.spelled {t : Token} {text rest : Str} (h : Takes (some t) text rest)
    (htype : t.type = .number ∨ t.type = .identifier) : Spelled t := by
  cases h with
  | @symbol c type _ hsymbol =>
    have hnot : symbolType c ≠ some .number ∧ symbolType c ≠ some .identifier := by
      unfold symbolType
      split_ifs <;> decide
    rcases htype with htype | htype
    · exact absurd (hsymbol.trans (congrArg some htype)) hnot.1
    · exact absurd (hsymbol.trans (congrArg some htype)) hnot.2
  | closed | unclosed | unknown => simp at htype
  | number hne hdigits => exact .number hne hdigits
  | @word c cs _ hc hcs =>
    have hword : keywordType (c :: cs) = .identifier := by
      rcases htype with htype | htype
      · have hmem := keywordType_mem (c :: cs)
        rw [show keywordType (c :: cs) = .number from htype] at hmem
        exact absurd hmem (by decide)
      · exact htype
    have hnot : ∀ k ∈ keywords, toUpper (c :: cs) ≠ lit k.1 := by
      intro k hk hupper
      have htypes : ∀ k ∈ keywords, k.2 ≠ .identifier := by decide
      exact htypes k hk ((keywordType_of_keyword hk hupper).symm.trans hword)
    rw [hword]
    exact .identifier hc hcs hnot

/-- No token has a quote in its value. -/
theorem Takes.quote_not_mem {t : Token} {text rest : Str} (h : Takes (some t) text rest) :
    quote ∉ t.value := by
  by_cases htype : t.type = .string
  · exact (h.literal htype).1
  · have hquote := h.no_quote fun t' ht' => Option.some.inj ht' ▸ htype
    cases h with
    | closed | unclosed => exact absurd rfl htype
    | symbol | number | word | unknown => exact hquote

/-- A token of an input has no quote, and is spelled where it is a number or an identifier. -/
theorem of_mem_handleInput {input : Str} {t : Token} (h : t ∈ handleInput input) :
    quote ∉ t.value ∧ (t.type = .number ∨ t.type = .identifier → Spelled t) := by
  rw [handleInput_eq, List.mem_append] at h
  rcases h with h | h
  · obtain ⟨l, hl, rfl⟩ := List.mem_map.mp h
    obtain ⟨-, rest, htakes⟩ := (written_iff.mpr rfl).exists_takes hl
    exact ⟨htakes.quote_not_mem, htakes.spelled⟩
  · obtain rfl := List.mem_singleton.mp h
    exact ⟨by simp, by simp⟩

/-- Without a quote in the input no token is a literal. -/
theorem ne_string_of_mem_handleInput {input : Str} (hinput : quote ∉ input) {t : Token}
    (h : t ∈ handleInput input) : t.type ≠ .string := by
  rw [handleInput_eq, List.mem_append] at h
  rcases h with h | h
  · obtain ⟨l, hl, rfl⟩ := List.mem_map.mp h
    intro htype
    obtain ⟨hsub, rest, htakes⟩ := (written_iff.mpr rfl).exists_takes hl
    have hquote : quote ∈ l.text := by
      rcases (htakes.literal htype).2 with htext | ⟨htext, -⟩ <;> rw [htext] <;>
        exact List.mem_cons_self
    exact hinput (hsub hquote)
  · obtain rfl := List.mem_singleton.mp h
    simp

end MiniDB.Lexer

namespace MiniDB.Parser

open Lexer

/-! ## The slots of an accepted statement -/

/-- The slot is a keyword or a symbol, or what one of the tokens is. -/
def Slot.From (tokens : List Token) : Slot → Prop
  | .keyword type => type ∈ keywords.map Prod.snd ++ symbols.map Prod.snd
  | .identifier text => ∃ tok ∈ tokens, tok.type = .identifier ∧ tok.value = text
  | .value text => ∃ tok ∈ tokens, IsValue tok ∧ tok.value = text

theorem Slot.From.mono {tokens tokens' : List Token} {s : Slot} (h : s.From tokens)
    (hsub : tokens ⊆ tokens') : s.From tokens' := by
  cases s with
  | keyword => exact h
  | identifier | value =>
    obtain ⟨tok, hmem, hfits⟩ := h
    exact ⟨tok, hsub hmem, hfits⟩

theorem of_mem_commaSeparated {s : Slot} {es : List (List Slot)} (h : s ∈ commaSeparated es) :
    s = .keyword .comma ∨ ∃ e ∈ es, s ∈ e := by
  induction es with
  | nil => cases h
  | cons e es ih =>
    cases es with
    | nil => exact Or.inr ⟨e, List.mem_singleton_self _, by simpa [commaSeparated] using h⟩
    | cons e' es =>
      rw [commaSeparated_cons e _ (by simp)] at h
      rcases List.mem_append.mp h with h | h
      · exact Or.inr ⟨e, List.mem_cons_self, h⟩
      rcases List.mem_cons.mp h with rfl | h
      · exact Or.inl rfl
      · rcases ih h with hcomma | ⟨d, hd, hs⟩
        · exact Or.inl hcomma
        · exact Or.inr ⟨d, List.mem_cons_of_mem _ hd, hs⟩

theorem from_commaSeparated {tokens : List Token} {es : List (List Slot)}
    (h : ∀ e ∈ es, ∀ s ∈ e, s.From tokens) : ∀ s ∈ commaSeparated es, s.From tokens := by
  intro s hs
  rcases of_mem_commaSeparated hs with rfl | ⟨e, he, hs⟩
  · show TokenType.comma ∈ _
    decide
  · exact h e he s hs

theorem Columns.exists_columns {ts : List Token} {cols : List ColumnDef} (h : Columns ts cols) :
    ∃ columns : List (Str × SqlType), columns.map (fun c => (⟨c.1, c.2.name⟩ : ColumnDef)) = cols ∧
      ∀ e ∈ columns.map columnSlots, ∀ s ∈ e, s.From ts := by
  induction h with
  | nil => exact ⟨[], rfl, by simp⟩
  | @cons name tok type comma ts cols hname htype _ _ ih =>
    obtain ⟨columns, rfl, hslots⟩ := ih
    obtain ⟨t, ht⟩ : ∃ t : SqlType, t.name = type := by
      rcases htype with ⟨-, rfl⟩ | ⟨-, rfl⟩
      · exact ⟨.int, rfl⟩
      · exact ⟨.text, rfl⟩
    refine ⟨(name.value, t) :: columns, by rw [List.map_cons, ht], ?_⟩
    intro e he s hs
    rcases List.mem_cons.mp he with rfl | he
    · rcases List.mem_pair.mp hs with rfl | rfl
      · exact ⟨name, List.mem_cons_self, hname, rfl⟩
      · have htypes : ∀ t : SqlType,
            t.keyword ∈ keywords.map Prod.snd ++ symbols.map Prod.snd := by
          intro t
          cases t <;> decide
        exact htypes t
    · exact (hslots e he s hs).mono fun tok hmem => by simp [hmem]

theorem Values.from {ts : List Token} {vals : List Str} (h : Values ts vals) :
    ∀ e ∈ vals.map fun v => [Slot.value v], ∀ s ∈ e, s.From ts := by
  induction h with
  | nil => simp
  | @cons tok comma ts vals hvalue _ _ ih =>
    intro e he s hs
    rcases List.mem_cons.mp he with rfl | he
    · obtain rfl := List.mem_singleton.mp hs
      exact ⟨tok, List.mem_cons_self, hvalue, rfl⟩
    · exact (ih e he s hs).mono fun tok hmem => by simp [hmem]

theorem Names.from {ts : List Token} {names : List Str} (h : Names ts names) :
    names ≠ [] ∧ ∀ e ∈ names.map fun n => [Slot.identifier n], ∀ s ∈ e, s.From ts := by
  induction h with
  | @one name hname =>
    refine ⟨by simp, fun e he s hs => ?_⟩
    obtain rfl := List.mem_singleton.mp he
    obtain rfl := List.mem_singleton.mp hs
    exact ⟨name, List.mem_cons_self, hname, rfl⟩
  | @cons name comma ts names hname _ _ ih =>
    refine ⟨by simp, fun e he s hs => ?_⟩
    rcases List.mem_cons.mp he with rfl | he
    · obtain rfl := List.mem_singleton.mp hs
      exact ⟨name, List.mem_cons_self, hname, rfl⟩
    · exact (ih.2 e he s hs).mono fun tok hmem => by simp [hmem]

theorem OptWhere.exists_filter {stmt stmt' : Statement} {ts : List Token}
    (h : OptWhere stmt ts stmt') (hwhere : stmt.hasWhere = false) (hclause : stmt.where_ = ⟨[], []⟩) :
    ∃ filter : Option WhereClause, stmt' = { stmt with
      hasWhere := filter.isSome, where_ := filter.getD ⟨[], []⟩ } ∧
      ∀ s ∈ filterSlots filter, s.From ts := by
  cases h with
  | none => exact ⟨Option.none, by simp [← hclause, ← hwhere], by simp [filterSlots]⟩
  | @some ts wc hwc =>
    refine ⟨Option.some wc, rfl, ?_⟩
    obtain ⟨-, hcol, -, hval⟩ := hwc
    intro s hs
    simp only [filterSlots, List.mem_cons, List.not_mem_nil, or_false] at hs
    rcases hs with rfl | rfl | rfl | rfl
    · show TokenType.where ∈ _
      decide
    · exact ⟨_, by simp, hcol, rfl⟩
    · show TokenType.equals ∈ _
      decide
    · exact ⟨_, by simp, hval, rfl⟩

/-- An accepted statement is a well-formed one, and its slots come from its tokens. -/
theorem Core.exists_sql {core : List Token} {stmt : Statement} (h : Core core stmt) :
    ∃ q : Sql, q.statement = stmt ∧ ∀ s ∈ q.slots, s.From core := by
  cases h with
  | @create create table name lparen rparen ts cols _ _ hname _ hcols _ =>
    obtain ⟨columns, rfl, hslots⟩ := hcols.exists_columns
    refine ⟨.createTable name.value columns, rfl, ?_⟩
    have hbody := from_commaSeparated hslots
    have hkeyword : ∀ {type : TokenType}, type ∈ keywords.map Prod.snd ++ symbols.map Prod.snd →
      (Slot.keyword type).From (create :: table :: name :: lparen :: (ts ++ [rparen])) := id
    simp only [Sql.slots, List.cons_append, List.nil_append, List.forall_mem_cons,
      List.forall_mem_append, List.not_mem_nil, false_imp_iff, implies_true, and_true]
    exact ⟨hkeyword (by decide), hkeyword (by decide), ⟨name, by simp, hname, rfl⟩,
      hkeyword (by decide), fun s hs => (hbody s hs).mono fun tok hmem => by simp [hmem],
      hkeyword (by decide)⟩
  | @insert insert into name values lparen rparen ts vals _ _ hname _ _ hvals _ =>
    refine ⟨.insert name.value vals, rfl, ?_⟩
    have hbody := from_commaSeparated hvals.from
    have hkeyword : ∀ {type : TokenType}, type ∈ keywords.map Prod.snd ++ symbols.map Prod.snd →
      (Slot.keyword type).From
        (insert :: into :: name :: values :: lparen :: (ts ++ [rparen])) := id
    simp only [Sql.slots, List.cons_append, List.nil_append, List.forall_mem_cons,
      List.forall_mem_append, List.not_mem_nil, false_imp_iff, implies_true, and_true]
    exact ⟨hkeyword (by decide), hkeyword (by decide), ⟨name, by simp, hname, rfl⟩,
      hkeyword (by decide), hkeyword (by decide),
      fun s hs => (hbody s hs).mono fun tok hmem => by simp [hmem], hkeyword (by decide)⟩
  | @select select from' name ts wh all cols stmt _ hlist _ hname hwh =>
    obtain ⟨filter, rfl, hfilter⟩ := hwh.exists_filter rfl rfl
    have hkeyword : ∀ {type : TokenType}, type ∈ keywords.map Prod.snd ++ symbols.map Prod.snd →
      (Slot.keyword type).From (select :: (ts ++ from' :: name :: wh)) := id
    have hfilter' : ∀ s ∈ filterSlots filter, s.From (select :: (ts ++ from' :: name :: wh)) :=
      fun s hs => (hfilter s hs).mono fun tok hmem => by simp [hmem]
    have hname' : (Slot.identifier name.value).From (select :: (ts ++ from' :: name :: wh)) :=
      ⟨name, by simp, hname, rfl⟩
    cases hlist with
    | star =>
      refine ⟨.selectAll name.value filter, rfl, ?_⟩
      simp only [Sql.slots, List.cons_append, List.nil_append, List.forall_mem_cons]
      exact ⟨hkeyword (by decide), hkeyword (by decide), hkeyword (by decide), hname', hfilter'⟩
    | names hnames =>
      obtain ⟨hne, hslots⟩ := hnames.from
      obtain ⟨column, columns, rfl⟩ := List.exists_cons_of_ne_nil hne
      refine ⟨.select column columns name.value filter, rfl, ?_⟩
      have hbody := from_commaSeparated hslots
      simp only [Sql.slots, List.cons_append, List.nil_append, List.forall_mem_cons,
        List.forall_mem_append]
      exact ⟨hkeyword (by decide), fun s hs => (hbody s hs).mono fun tok hmem => by simp [hmem],
        hkeyword (by decide), hname', hfilter'⟩
  | @delete delete from' name wh stmt _ _ hname hwh =>
    obtain ⟨filter, rfl, hfilter⟩ := hwh.exists_filter rfl rfl
    refine ⟨.delete name.value filter, rfl, ?_⟩
    have hkeyword : ∀ {type : TokenType}, type ∈ keywords.map Prod.snd ++ symbols.map Prod.snd →
      (Slot.keyword type).From (delete :: from' :: name :: wh) := id
    simp only [Sql.slots, List.cons_append, List.nil_append, List.forall_mem_cons]
    exact ⟨hkeyword (by decide), hkeyword (by decide), ⟨name, by simp, hname, rfl⟩,
      fun s hs => (hfilter s hs).mono fun tok hmem => by simp [hmem]⟩

/-! ## Quotes -/

/-- The text of a name or a value. -/
def Slot.text : Slot → Str
  | .keyword _ => []
  | .identifier text => text
  | .value text => text

theorem Slot.From.quote_not_mem {tokens : List Token} {s : Slot} (h : s.From tokens)
    (htokens : ∀ tok ∈ tokens, quote ∉ tok.value) : quote ∉ s.text := by
  cases s with
  | keyword => simp [Slot.text]
  | identifier | value =>
    obtain ⟨tok, hmem, -, rfl⟩ := h
    exact htokens tok hmem

theorem quote_not_mem_listed : ∀ {vs : List Str}, (∀ v ∈ vs, quote ∉ v) → quote ∉ listed vs
  | [], _ => by simp [listed]
  | [v], h => h v List.mem_cons_self
  | v :: v' :: vs, h => by
    obtain ⟨hv, hrest⟩ := List.forall_mem_cons.mp h
    have hcomma : quote ∉ lit ", " := by decide
    simp [listed, hv, hcomma, quote_not_mem_listed hrest]

theorem quote_not_mem_columnLines : ∀ {columns : List (Str × SqlType)},
    (∀ column ∈ columns, quote ∉ column.1) →
    quote ∉ columnLines (columns.map fun column => ⟨column.1, column.2.name⟩)
  | [], _ => by simp [columnLines]
  | column :: columns, h => by
    obtain ⟨hcolumn, hrest⟩ := List.forall_mem_cons.mp h
    have htype : quote ∉ column.2.name := by cases column.2 <;> decide
    have hfixed : quote ∉ lit "  " ∧ quote ∉ lit " " ∧ quote ∉ lit ",\n" ∧ quote ∉ lit "\n" := by
      decide
    cases columns with
    | nil => simp [columnLines, hcolumn, htype, hfixed]
    | cons column' columns =>
      have ih := quote_not_mem_columnLines hrest
      simpa [columnLines, hcolumn, htype, hfixed] using ih

theorem quote_not_mem_conditionText {stmt : Statement} {filter : Option WhereClause}
    (hfilter : ∀ s ∈ filterSlots filter, quote ∉ s.text) (hwhere : stmt.hasWhere = filter.isSome)
    (hclause : stmt.where_ = filter.getD ⟨[], []⟩) : quote ∉ conditionText stmt := by
  have hfixed : quote ∉ lit " WHERE " ∧ quote ∉ lit " = " := by decide
  cases filter with
  | none => simp [conditionText, hwhere]
  | some wc =>
    have hcolumn : quote ∉ wc.column := hfilter (.identifier wc.column) (by simp [filterSlots])
    have hvalue : quote ∉ wc.value := hfilter (.value wc.value) (by simp [filterSlots])
    simp [conditionText, hwhere, hclause, hfixed, hcolumn, hvalue]

/-- The text has no quotes beside those of the names and the values. -/
theorem Sql.quote_not_mem (q : Sql) (h : ∀ s ∈ q.slots, quote ∉ s.text) :
    quote ∉ statementToString q.statement := by
  have hfixed : quote ∉ lit "CREATE TABLE " ∧ quote ∉ lit " (\n" ∧ quote ∉ lit ")" ∧
      quote ∉ lit "INSERT INTO " ∧ quote ∉ lit " VALUES (" ∧ quote ∉ lit "SELECT " ∧
      quote ∉ lit "*" ∧ quote ∉ lit " FROM " ∧ quote ∉ lit "DELETE FROM " := by decide
  cases q with
  | createTable name columns =>
    have hname : quote ∉ name := h (.identifier name) (by simp [slots])
    have hcolumns : quote ∉ columnLines (columns.map fun column => ⟨column.1, column.2.name⟩) :=
      quote_not_mem_columnLines fun column hcolumn => h (.identifier column.1) (by
        have hmem : Slot.identifier column.1 ∈ commaSeparated (columns.map columnSlots) :=
          mem_commaSeparated (List.mem_map_of_mem hcolumn) (by simp [columnSlots])
        simp [slots, hmem])
    simpa [statementToString, statement, hfixed, hname] using hcolumns
  | insert name values =>
    have hname : quote ∉ name := h (.identifier name) (by simp [slots])
    have hvalues : quote ∉ listed values := quote_not_mem_listed fun v hv => h (.value v) (by
      have hmem : Slot.value v ∈ commaSeparated (values.map fun value => [.value value]) :=
        mem_commaSeparated (List.mem_map_of_mem hv) (List.mem_singleton_self _)
      simp [slots, hmem])
    simpa [statementToString, statement, hfixed, hname] using hvalues
  | selectAll name filter =>
    have hname : quote ∉ name := h (.identifier name) (by simp [slots])
    have hcondition : quote ∉ conditionText (Sql.selectAll name filter).statement :=
      quote_not_mem_conditionText (fun s hs => h s (by simp [slots, hs])) rfl rfl
    rw [statementToString]
    simpa [statement, hfixed, hname] using hcondition
  | select column columns name filter =>
    have hname : quote ∉ name := h (.identifier name) (by simp [slots])
    have hcondition : quote ∉ conditionText (Sql.select column columns name filter).statement :=
      quote_not_mem_conditionText (fun s hs => h s (by simp [slots, hs])) rfl rfl
    have hcolumns : quote ∉ listed (column :: columns) := quote_not_mem_listed fun v hv =>
      h (.identifier v) (by
        have hmem : Slot.identifier v ∈
            commaSeparated ((column :: columns).map fun column => [.identifier column]) :=
          mem_commaSeparated (List.mem_map_of_mem hv) (List.mem_singleton_self _)
        rw [slots]
        exact List.mem_cons_of_mem _ (List.mem_append_left _ hmem))
    rw [statementToString]
    simpa [statement, hfixed, hname, hcolumns] using hcondition
  | delete name filter =>
    have hname : quote ∉ name := h (.identifier name) (by simp [slots])
    have hcondition : quote ∉ conditionText (Sql.delete name filter).statement :=
      quote_not_mem_conditionText (fun s hs => h s (by simp [slots, hs])) rfl rfl
    rw [statementToString]
    simpa [statement, hfixed, hname] using hcondition

/-! ## Parsing the text of a statement -/

theorem value_mem_commaSeparated {v : Str} {es : List (List Slot)} :
    Slot.value v ∈ commaSeparated es ↔ ∃ e ∈ es, Slot.value v ∈ e := by
  constructor
  · intro h
    exact (of_mem_commaSeparated h).resolve_left (by simp)
  · rintro ⟨e, he, hs⟩
    exact mem_commaSeparated he hs

theorem Sql.value_mem_slots {q : Sql} {v : Str} :
    Slot.value v ∈ q.slots ↔ v ∈ literals q.statement := by
  cases q with
  | createTable | insert =>
    simp [slots, statement, literals, value_mem_commaSeparated, columnSlots]
  | selectAll name filter | select column columns name filter | delete name filter =>
    cases filter <;> simp [slots, statement, literals, value_mem_commaSeparated, filterSlots]

theorem spelled_keyword {type : TokenType}
    (h : type ∈ keywords.map Prod.snd ++ symbols.map Prod.snd) :
    Spelled (Slot.keyword type).token := by
  rcases List.mem_append.mp h with h | h
  · obtain ⟨k, hk, rfl⟩ := List.mem_map.mp h
    have hall : ∀ k ∈ keywords, keywordText k.2 = lit k.1 ∧ toUpper (lit k.1) = lit k.1 := by
      decide
    rw [Slot.token, (hall k hk).1]
    exact .keyword hk (hall k hk).2
  · obtain ⟨k, hk, rfl⟩ := List.mem_map.mp h
    have hall : ∀ k ∈ symbols, keywordText k.2 = [k.1] := by decide
    rw [Slot.token, hall k hk]
    exact .symbol hk

theorem Bare.spelled {v : Str} (h : Bare v) : Spelled (Slot.value v).token := by
  unfold Slot.token
  dsimp only
  split_ifs with hdigits
  · rcases h with h | h
    · exact h
    · cases h with
      | keyword hmem =>
        have hnone : ∀ k ∈ keywords, k.2 ≠ .identifier := by decide
        exact absurd rfl (hnone _ hmem)
      | symbol hmem =>
        have hnone : ∀ k ∈ symbols, k.2 ≠ .identifier := by decide
        exact absurd rfl (hnone _ hmem)
      | identifier hc =>
        have hdigit := (isWord_disjoint hc).2.2.2
        simp [hdigit] at hdigits
  · rcases h with h | h
    · cases h with
      | keyword hmem =>
        have hnone : ∀ k ∈ keywords, k.2 ≠ .number := by decide
        exact absurd rfl (hnone _ hmem)
      | symbol hmem =>
        have hnone : ∀ k ∈ symbols, k.2 ≠ .number := by decide
        exact absurd rfl (hnone _ hmem)
      | number _ hrun => exact absurd (List.all_eq_true.mpr hrun) hdigits
    · exact h

theorem fits_token : ∀ (s : Slot), s.Fits s.token
  | .keyword _ => rfl
  | .identifier _ => ⟨rfl, rfl⟩
  | .value text => by
    unfold Slot.token
    dsimp only
    split_ifs
    · exact ⟨Or.inl rfl, rfl⟩
    · exact ⟨Or.inr (Or.inr rfl), rfl⟩

/-- A text that is written with the slots of a statement parses to that statement, and all of it is
consumed. -/
theorem parse_written {q : Sql} {text : Str}
    (h : Written text (q.slots.map fun s => lexeme s.token)) :
    parse (handleInput text) = .ok (q.statement, [⟨.eof, []⟩]) := by
  have htokens : handleInput text = q.slots.map Slot.token ++ [⟨.eof, []⟩] := by
    rw [handleInput_eq, written_iff.mp h, List.map_map]
    rfl
  have hfits : List.Forall₂ Slot.Fits q.slots (q.slots.map Slot.token) :=
    List.forall₂_map_right_iff.mpr (List.forall₂_same.mpr fun s _ => fits_token s)
  rw [htokens]
  exact parse_eq_ok.mpr ⟨_, Sql.core_of_fits q hfits,
    Or.inr ⟨⟨.eof, []⟩, [], rfl, rfl, by simp, fun _ => by simp⟩⟩

theorem Leaves.core_subset {stmt : Statement} {core tokens rest : List Token}
    (h : Leaves stmt core tokens rest) : core ⊆ tokens := by
  rcases h with ⟨semi, -, rfl⟩ | ⟨t, ts, -, rfl, -⟩ <;> exact List.subset_append_left _ _

/-- The text that is printed for an accepted statement parses to it again exactly when every value
is a number or an identifier as it stands; all of the text is then consumed. -/
theorem reparse_iff {input : Str} {stmt : Statement} {rest : List Token}
    (h : parse (handleInput input) = .ok (stmt, rest)) :
    ((∃ rest', parse (handleInput (statementToString stmt)) = .ok (stmt, rest')) ↔
      ∀ v ∈ literals stmt, Bare v) ∧
    ∀ rest', parse (handleInput (statementToString stmt)) = .ok (stmt, rest') →
      rest' = [⟨.eof, []⟩] := by
  obtain ⟨core, hcore, hleaves⟩ := parse_eq_ok.mp h
  obtain ⟨q, rfl, hslots⟩ := hcore.exists_sql
  have hmem : ∀ tok ∈ core, tok ∈ handleInput input := hleaves.core_subset
  -- The text has no quote, so that no value in it is read as a literal.
  have hquote : quote ∉ statementToString q.statement := q.quote_not_mem fun s hs =>
    (hslots s hs).quote_not_mem fun tok htok => (of_mem_handleInput (hmem tok htok)).1
  have hbare : ∀ rest', parse (handleInput (statementToString q.statement)) =
      .ok (q.statement, rest') → ∀ v ∈ literals q.statement, Bare v := by
    intro rest' hparse v hv
    obtain ⟨core', hcore', hleaves'⟩ := parse_eq_ok.mp hparse
    obtain ⟨q', hq', hslots'⟩ := hcore'.exists_sql
    obtain rfl := Sql.statement_injective hq'
    obtain ⟨tok, htok, hvalue, rfl⟩ := hslots' _ (Sql.value_mem_slots.mpr hv)
    have htok := hleaves'.core_subset htok
    have hspelled := (of_mem_handleInput htok).2
    rcases hvalue with htype | htype | htype
    · exact Or.inl (htype ▸ hspelled (Or.inl htype))
    · exact absurd htype (ne_string_of_mem_handleInput hquote htok)
    · exact Or.inr (htype ▸ hspelled (Or.inr htype))
  have hparse : (∀ v ∈ literals q.statement, Bare v) →
      parse (handleInput (statementToString q.statement)) = .ok (q.statement, [⟨.eof, []⟩]) := by
    intro hvalues
    refine parse_written (q.written_statement fun s hs => ?_)
    cases s with
    | keyword type => exact spelled_keyword (hslots _ hs)
    | identifier name =>
      obtain ⟨tok, htok, htype, rfl⟩ := hslots _ hs
      have hspelled : Spelled ⟨tok.type, tok.value⟩ :=
        (of_mem_handleInput (hmem tok htok)).2 (Or.inr htype)
      rw [htype] at hspelled
      exact hspelled
    | value v => exact (hvalues v (Sql.value_mem_slots.mp hs)).spelled
  refine ⟨⟨fun ⟨rest', h⟩ => hbare rest' h, fun h => ⟨_, hparse h⟩⟩, fun rest' h => ?_⟩
  have heq := h.symm.trans (hparse (hbare rest' h))
  exact (Prod.mk.inj (Except.ok.inj heq)).2

/-- `insert into t values (1, 'two')` prints as `INSERT INTO t VALUES (1, two)`. -/
theorem reparse_iff_insert : ∃ rest, parse (handleInput (statementToString
    { type := .insert, tableName := lit "t", values := [lit "1", lit "two"] })) =
      .ok ({ type := .insert, tableName := lit "t", values := [lit "1", lit "two"] }, rest) := by
  have hparse : parse (handleInput (lit "insert into t values (1, 'two')")) =
      .ok ({ type := .insert, tableName := lit "t", values := [lit "1", lit "two"] },
        [⟨.eof, []⟩]) := by decide
  refine (reparse_iff hparse).1.mpr fun v hv => ?_
  obtain rfl | rfl : v = lit "1" ∨ v = lit "two" := by simpa [literals] using hv
  · rw [show lit "1" = [49] by decide]
    exact Or.inl (.number (by decide) (List.forall_mem_singleton.mpr rfl))
  · rw [show lit "two" = [116, 119, 111] by decide]
    exact Or.inr (.identifier (by decide) (by simp [isWordByte, isAlpha]) (by decide))

end MiniDB.Parser
