import MiniDB.Parser.Grammar

/-!
# Every well-formed statement parses

The statements as they are meant, and how each is written down as tokens: a list has single commas
between its elements, a value may be a number, a string or an identifier of its text, and the lexer
keeps the spelling of a keyword, so that only its type is fixed. The parser gives back every
statement that was written down, and no two of them are confused.

## Main definitions

* `Sql`: the well-formed statements
* `Sql.statement`: the parsed statement that is meant, with all its fields
* `Slot`, `Sql.slots`: what the tokens of a statement are to be
* `Sql.Renders`: a token stream writes a statement down

## Main results

* `Sql.statement_injective`: different statements differ in a field
* `Sql.parse_rendering`: the parser gives every statement back
-/

namespace MiniDB.Parser

/-! ## Statements and how they are written -/

/-- The types a column can be given. -/
inductive SqlType
  | int
  | text
deriving DecidableEq, Repr

/-- The well-formed statements. -/
inductive Sql
  | createTable (name : Str) (columns : List (Str × SqlType))
  | insert (name : Str) (values : List Str)
  | selectAll (name : Str) (filter : Option WhereClause)
  | select (column : Str) (columns : List Str) (name : Str) (filter : Option WhereClause)
  | delete (name : Str) (filter : Option WhereClause)
deriving DecidableEq, Repr

/-- What a token is to be: any spelling of a keyword or a symbol, an identifier, or a value. -/
inductive Slot
  | keyword (type : TokenType)
  | identifier (text : Str)
  | value (text : Str)
deriving DecidableEq, Repr

/-- The token is what the slot asks for. -/
def Slot.Fits : Slot → Token → Prop
  | .keyword type, tok => tok.type = type
  | .identifier text, tok => tok.type = .identifier ∧ tok.value = text
  | .value text, tok => IsValue tok ∧ tok.value = text

/-- The text of a column type in a parsed statement. -/
def SqlType.name : SqlType → Str
  | .int => lit "INT"
  | .text => lit "TEXT"

/-- The keyword of a column type. -/
def SqlType.keyword : SqlType → TokenType
  | .int => .int
  | .text => .text

/-- Slots with a comma between each two of them. -/
def commaSeparated (elements : List (List Slot)) : List Slot :=
  [Slot.keyword .comma].intercalate elements

/-- A column definition. -/
def columnSlots (column : Str × SqlType) : List Slot :=
  [.identifier column.1, .keyword column.2.keyword]

/-- An optional `WHERE` clause. -/
def filterSlots : Option WhereClause → List Slot
  | none => []
  | some wc => [.keyword .where, .identifier wc.column, .keyword .equals, .value wc.value]

namespace Sql

/-- A statement without its semicolon. -/
def slots : Sql → List Slot
  | .createTable name columns =>
    [.keyword .create, .keyword .table, .identifier name, .keyword .lparen] ++
      (commaSeparated (columns.map columnSlots) ++ [.keyword .rparen])
  | .insert name values =>
    [.keyword .insert, .keyword .into, .identifier name, .keyword .values, .keyword .lparen] ++
      (commaSeparated (values.map fun value => [.value value]) ++ [.keyword .rparen])
  | .selectAll name filter =>
    [.keyword .select, .keyword .star, .keyword .from, .identifier name] ++ filterSlots filter
  | .select column columns name filter =>
    .keyword .select :: (commaSeparated ((column :: columns).map fun column => [.identifier column]) ++
      ([.keyword .from, .identifier name] ++ filterSlots filter))
  | .delete name filter =>
    [.keyword .delete, .keyword .from, .identifier name] ++ filterSlots filter

/-- The tokens write the statement down, with or without the semicolon, and end in `EOF`. -/
def Renders (q : Sql) (semicolon : Bool) (tokens : List Token) : Prop :=
  List.Forall₂ Slot.Fits
    (q.slots ++ ((if semicolon then [.keyword .semicolon] else []) ++ [.keyword .eof])) tokens

/-- The parsed statement that is meant, with the fields that its form does not use. -/
def statement : Sql → Statement
  | .createTable name columns =>
    { type := .createTable, tableName := name,
      columns := columns.map fun column => ⟨column.1, column.2.name⟩,
      values := [], selectColumns := [], selectAll := false, hasWhere := false, where_ := ⟨[], []⟩ }
  | .insert name values =>
    { type := .insert, tableName := name, columns := [], values := values,
      selectColumns := [], selectAll := false, hasWhere := false, where_ := ⟨[], []⟩ }
  | .selectAll name filter =>
    { type := .select, tableName := name, columns := [], values := [], selectColumns := [],
      selectAll := true, hasWhere := filter.isSome, where_ := filter.getD ⟨[], []⟩ }
  | .select column columns name filter =>
    { type := .select, tableName := name, columns := [], values := [],
      selectColumns := column :: columns, selectAll := false, hasWhere := filter.isSome,
      where_ := filter.getD ⟨[], []⟩ }
  | .delete name filter =>
    { type := .delete, tableName := name, columns := [], values := [], selectColumns := [],
      selectAll := false, hasWhere := filter.isSome, where_ := filter.getD ⟨[], []⟩ }

end Sql

/-! ## The parts of a statement -/

theorem fits_append {xs ys : List Slot} : ∀ {ts : List Token},
    List.Forall₂ Slot.Fits (xs ++ ys) ts → ∃ first rest, ts = first ++ rest ∧
      List.Forall₂ Slot.Fits xs first ∧ List.Forall₂ Slot.Fits ys rest := by
  induction xs with
  | nil => exact fun h => ⟨[], _, rfl, .nil, h⟩
  | cons x xs ih =>
    intro ts h
    obtain _ | ⟨htok, htail⟩ := h
    obtain ⟨first, rest, rfl, hfirst, hrest⟩ := ih htail
    exact ⟨_ :: first, rest, rfl, .cons htok hfirst, hrest⟩

/-- The first element of a list, and the others behind a comma. -/
theorem fits_commaSeparated {x : List Slot} {xs : List (List Slot)} {ts : List Token}
    (h : List.Forall₂ Slot.Fits (commaSeparated (x :: xs)) ts) :
    ∃ first comma rest, ts = first ++ (comma ++ rest) ∧ List.Forall₂ Slot.Fits x first ∧
      List.Forall₂ Slot.Fits (commaSeparated xs) rest ∧
      ((xs = [] ∧ comma = []) ∨ (xs ≠ [] ∧ ∃ t : Token, t.type = .comma ∧ comma = [t])) := by
  cases xs with
  | nil =>
    have hsingle : commaSeparated [x] = x := by simp [commaSeparated]
    rw [hsingle] at h
    exact ⟨ts, [], [], by simp, h, .nil, Or.inl ⟨rfl, rfl⟩⟩
  | cons y ys =>
    have hcons : commaSeparated (x :: y :: ys) =
        x ++ (.keyword .comma :: commaSeparated (y :: ys)) := by
      simp [commaSeparated, List.intercalate_cons_cons]
    rw [hcons] at h
    obtain ⟨first, tail, rfl, hfirst, htail⟩ := fits_append h
    cases htail with
    | @cons _ comma _ rest hcomma hrest =>
      exact ⟨first, [comma], rest, rfl, hfirst, hrest, Or.inr ⟨by simp, comma, hcomma, rfl⟩⟩

/-- The parser takes a comma wherever there may be one. -/
theorem optComma_of_fits {xs : List (List Slot)} {comma : List Token}
    (h : (xs = [] ∧ comma = []) ∨ (xs ≠ [] ∧ ∃ t : Token, t.type = .comma ∧ comma = [t])) :
    OptComma comma := by
  rcases h with ⟨-, rfl⟩ | ⟨-, t, ht, rfl⟩
  · exact Or.inl rfl
  · exact Or.inr ⟨t, ht, rfl⟩

theorem columns_of_fits : ∀ (columns : List (Str × SqlType)) {ts : List Token},
    List.Forall₂ Slot.Fits (commaSeparated (columns.map columnSlots)) ts →
    Columns ts (columns.map fun column => ⟨column.1, column.2.name⟩) := by
  intro columns
  induction columns with
  | nil =>
    intro ts h
    cases h
    exact .nil
  | cons column columns ih =>
    intro ts h
    obtain ⟨first, comma, rest, rfl, hfirst, hrest, hcomma⟩ := fits_commaSeparated h
    obtain ⟨name, tok, ⟨hname, hvalue⟩, htype, rfl⟩ : ∃ name tok : Token,
        (name.type = .identifier ∧ name.value = column.1) ∧ tok.type = column.2.keyword ∧
        first = [name, tok] := by
      obtain _ | ⟨hname, htail⟩ := hfirst
      obtain _ | ⟨htype, hnil⟩ := htail
      cases hnil
      exact ⟨_, _, hname, htype, rfl⟩
    have hcolumn : ColumnType tok column.2.name := by
      unfold ColumnType
      cases h : column.2 with
      | int => exact Or.inl ⟨by rw [htype, h]; rfl, rfl⟩
      | text => exact Or.inr ⟨by rw [htype, h]; rfl, rfl⟩
    rw [List.map_cons, ← hvalue]
    have hcons := Columns.cons hname hcolumn (optComma_of_fits hcomma) (ih hrest)
    exact hcons

theorem values_of_fits : ∀ (values : List Str) {ts : List Token},
    List.Forall₂ Slot.Fits (commaSeparated (values.map fun value => [.value value])) ts →
    Values ts values := by
  intro values
  induction values with
  | nil =>
    intro ts h
    cases h
    exact .nil
  | cons value values ih =>
    intro ts h
    obtain ⟨first, comma, rest, rfl, hfirst, hrest, hcomma⟩ := fits_commaSeparated h
    obtain ⟨tok, ⟨htok, rfl⟩, rfl⟩ : ∃ tok : Token, (IsValue tok ∧ tok.value = value) ∧
        first = [tok] := by
      obtain _ | ⟨htok, hnil⟩ := hfirst
      cases hnil
      exact ⟨_, htok, rfl⟩
    have hcons := Values.cons htok (optComma_of_fits hcomma) (ih hrest)
    exact hcons

theorem names_of_fits : ∀ (columns : List Str) (column : Str) {ts : List Token},
    List.Forall₂ Slot.Fits
      (commaSeparated ((column :: columns).map fun column => [.identifier column])) ts →
    Names ts (column :: columns) := by
  intro columns
  induction columns with
  | nil =>
    intro column ts h
    obtain ⟨first, comma, rest, rfl, hfirst, hrest, hcomma⟩ := fits_commaSeparated h
    rcases hcomma with ⟨-, rfl⟩ | ⟨hne, -⟩
    · obtain _ | ⟨⟨htype, rfl⟩, hnil⟩ := hfirst
      cases hnil
      cases hrest
      exact .one htype
    · exact absurd rfl hne
  | cons second columns ih =>
    intro column ts h
    obtain ⟨first, comma, rest, rfl, hfirst, hrest, hcomma⟩ := fits_commaSeparated h
    rcases hcomma with ⟨hnil, -⟩ | ⟨-, t, ht, rfl⟩
    · cases hnil
    · obtain _ | ⟨⟨htype, rfl⟩, hnil⟩ := hfirst
      cases hnil
      exact .cons htype ht (ih second hrest)

theorem optWhere_of_fits (stmt : Statement) (hwhere : stmt.hasWhere = false)
    (hclause : stmt.where_ = ⟨[], []⟩) {filter : Option WhereClause} {ts : List Token}
    (h : List.Forall₂ Slot.Fits (filterSlots filter) ts) :
    OptWhere stmt ts { stmt with hasWhere := filter.isSome, where_ := filter.getD ⟨[], []⟩ } := by
  cases filter with
  | none =>
    cases h
    have hsame : { stmt with hasWhere := false, where_ := ⟨[], []⟩ } = stmt := by
      rw [← hwhere, ← hclause]
    show OptWhere stmt [] { stmt with hasWhere := false, where_ := ⟨[], []⟩ }
    rw [hsame]
    exact .none
  | some wc =>
    obtain _ | ⟨hkey, h⟩ := h
    obtain _ | ⟨⟨hcol, hname⟩, h⟩ := h
    obtain _ | ⟨heq, h⟩ := h
    obtain _ | ⟨⟨hval, htext⟩, h⟩ := h
    cases h
    have hclause := Where.clause hkey hcol heq hval
    rw [hname, htext] at hclause
    exact .some hclause

/-! ## Statements -/

namespace Sql

/-- The tokens before the semicolon derive the statement. -/
theorem core_of_fits : ∀ (q : Sql) {ts : List Token}, List.Forall₂ Slot.Fits q.slots ts →
    Core ts q.statement := by
  intro q ts h
  -- One case for each form; its keywords are taken off one by one, down to the list or the clause.
  cases q with
  | createTable name columns =>
    obtain ⟨front, back, rfl, hfront, hback⟩ := fits_append h
    obtain _ | ⟨h₁, hfront⟩ := hfront
    obtain _ | ⟨h₂, hfront⟩ := hfront
    obtain _ | ⟨⟨h₃, rfl⟩, hfront⟩ := hfront
    obtain _ | ⟨h₄, hnil⟩ := hfront
    cases hnil
    obtain ⟨body, tail, rfl, hbody, htail⟩ := fits_append hback
    obtain _ | ⟨h₅, hnil⟩ := htail
    cases hnil
    exact .create h₁ h₂ h₃ h₄ (columns_of_fits columns hbody) h₅
  | insert name values =>
    obtain ⟨front, back, rfl, hfront, hback⟩ := fits_append h
    obtain _ | ⟨h₁, hfront⟩ := hfront
    obtain _ | ⟨h₂, hfront⟩ := hfront
    obtain _ | ⟨⟨h₃, rfl⟩, hfront⟩ := hfront
    obtain _ | ⟨h₄, hfront⟩ := hfront
    obtain _ | ⟨h₅, hnil⟩ := hfront
    cases hnil
    obtain ⟨body, tail, rfl, hbody, htail⟩ := fits_append hback
    obtain _ | ⟨h₆, hnil⟩ := htail
    cases hnil
    exact .insert h₁ h₂ h₃ h₄ h₅ (values_of_fits values hbody) h₆
  | selectAll name filter =>
    obtain _ | ⟨h₁, h⟩ := h
    obtain _ | ⟨h₂, h⟩ := h
    obtain _ | ⟨h₃, h⟩ := h
    obtain _ | ⟨⟨h₄, rfl⟩, h⟩ := h
    exact .select h₁ (.star h₂) h₃ h₄ (optWhere_of_fits _ rfl rfl h)
  | select column columns name filter =>
    obtain ⟨select, back, h₁, hback, rfl⟩ := List.forall₂_cons_left_iff.mp h
    obtain ⟨body, tail, rfl, hbody, htail⟩ := fits_append hback
    obtain _ | ⟨h₂, htail⟩ := htail
    obtain _ | ⟨⟨h₃, hname⟩, hfilter⟩ := htail
    rw [← hname]
    exact .select h₁ (.names (names_of_fits columns column hbody)) h₂ h₃
      (optWhere_of_fits _ rfl rfl hfilter)
  | delete name filter =>
    obtain _ | ⟨h₁, h⟩ := h
    obtain _ | ⟨h₂, h⟩ := h
    obtain _ | ⟨⟨h₃, rfl⟩, h⟩ := h
    exact .delete h₁ h₂ h₃ (optWhere_of_fits _ rfl rfl h)

/-- The parser takes the statement and stops at `EOF`. -/
theorem Renders.parse_eq {q : Sql} {semicolon : Bool} {ts : List Token}
    (h : q.Renders semicolon ts) : ∃ eof : Token, eof.type = .eof ∧
      parse ts = .ok (q.statement, [eof]) := by
  obtain ⟨core, tail, rfl, hcore, htail⟩ := fits_append h
  obtain ⟨semi, last, rfl, hsemi, hlast⟩ := fits_append htail
  obtain _ | @⟨_, eof, _, _, heof, hnil⟩ := hlast
  cases hnil
  refine ⟨eof, heof, parse_eq_ok.mpr ⟨core, core_of_fits q hcore, ?_⟩⟩
  have heof : eof.type = .eof := heof
  -- Without a semicolon the parser has to stop at `EOF`.
  cases semicolon with
  | false =>
    cases hsemi
    refine Or.inr ⟨eof, [], rfl, rfl, ?_, fun _ => ?_⟩ <;> rw [heof] <;> decide
  | true =>
    obtain _ | ⟨hsemi, hnil⟩ := hsemi
    cases hnil
    exact Or.inl ⟨_, hsemi, rfl⟩

theorem filter_injective {f g : Option WhereClause} (hsome : f.isSome = g.isSome)
    (hclause : f.getD ⟨[], []⟩ = g.getD ⟨[], []⟩) : f = g := by
  cases f <;> cases g <;> simp_all

/-- Different statements differ in a field of the parsed statement. -/
theorem statement_injective : Function.Injective statement := by
  intro q q' h
  have hcolumn : Function.Injective fun column : Str × SqlType =>
      (⟨column.1, column.2.name⟩ : ColumnDef) := by
    rintro ⟨name, type⟩ ⟨name', type'⟩ heq
    obtain ⟨rfl, htype⟩ := ColumnDef.mk.inj heq
    cases type <;> cases type' <;> simp_all [SqlType.name, lit]
  cases q <;> cases q' <;> simp only [statement, Statement.mk.injEq, reduceCtorEq, false_and,
    true_and, and_true, and_false, Bool.false_eq_true] at h
  case createTable.createTable =>
    obtain ⟨rfl, hcolumns⟩ := h
    rw [hcolumn.list_map hcolumns]
  case insert.insert =>
    obtain ⟨rfl, rfl⟩ := h
    rfl
  case selectAll.selectAll =>
    obtain ⟨rfl, hsome, hclause⟩ := h
    rw [filter_injective hsome hclause]
  case select.select =>
    obtain ⟨rfl, hcolumns, hsome, hclause⟩ := h
    obtain ⟨rfl, rfl⟩ := List.cons.inj hcolumns
    rw [filter_injective hsome hclause]
  case delete.delete =>
    obtain ⟨rfl, hsome, hclause⟩ := h
    rw [filter_injective hsome hclause]

/-- Every well-formed statement, written down as tokens with or without its semicolon, parses to the
statement that is meant, in all its fields; and no two different statements parse alike. -/
theorem parse_rendering (q : Sql) (semicolon : Bool) (ts : List Token)
    (h : q.Renders semicolon ts) :
    (∃ eof : Token, eof.type = .eof ∧ parse ts = .ok (q.statement, [eof])) ∧
    ∀ (q' : Sql) (semicolon' : Bool) (ts' : List Token), q'.Renders semicolon' ts' → q' ≠ q →
      (parse ts').map Prod.fst ≠ (parse ts).map Prod.fst := by
  refine ⟨h.parse_eq, fun q' semicolon' ts' h' hne hsame => hne ?_⟩
  obtain ⟨eof, -, hparse⟩ := h.parse_eq
  obtain ⟨eof', -, hparse'⟩ := h'.parse_eq
  rw [hparse, hparse'] at hsame
  exact statement_injective (Except.ok.inj hsame)

/-- The tokens of `select id, name FROM t WHERE id = 1;` -/
theorem parse_rendering_select : ∃ (ts : List Token) (eof : Token),
    (Sql.select (lit "id") [lit "name"] (lit "t") (some ⟨lit "id", lit "1"⟩)).Renders true ts ∧
    eof.type = .eof ∧ parse ts =
      .ok ({ type := .select, tableName := lit "t", selectColumns := [lit "id", lit "name"],
             hasWhere := true, where_ := ⟨lit "id", lit "1"⟩ }, [eof]) := by
  have hts : (Sql.select (lit "id") [lit "name"] (lit "t") (some ⟨lit "id", lit "1"⟩)).Renders true
      [⟨.select, lit "select"⟩, ⟨.identifier, lit "id"⟩, ⟨.comma, lit ","⟩,
        ⟨.identifier, lit "name"⟩, ⟨.from, lit "FROM"⟩, ⟨.identifier, lit "t"⟩,
        ⟨.where, lit "WHERE"⟩, ⟨.identifier, lit "id"⟩, ⟨.equals, lit "="⟩, ⟨.number, lit "1"⟩,
        ⟨.semicolon, lit ";"⟩, ⟨.eof, []⟩] := by
    simp [Renders, slots, commaSeparated, filterSlots, List.intercalate_cons_cons, Slot.Fits,
      IsValue]
  obtain ⟨⟨eof, heof, hparse⟩, -⟩ := parse_rendering _ true _ hts
  exact ⟨_, eof, hts, heof, hparse⟩

end Sql

end MiniDB.Parser
