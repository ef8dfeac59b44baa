import MiniDB.Common
import MiniDB.Foundations.Machine

/-!
# The SQL parser

`parser.h` and `parser.cpp`: a recursive-descent parser over the tokens of the lexer. The position
of the parser is the list of tokens from it on; reading a token where there is none is an error of
its own, as is a loop that outlives its fuel, so that a call which returns is one that stayed inside
the stream and terminated.

## Main definitions

* `Token`, `Statement`: the tokens, and the parsed statements
* `ParseError`: the ways a call can fail
* `parse`: the statement, and the tokens from the parser's final position on
-/

namespace MiniDB

/-- The types of tokens the lexer produces. -/
inductive TokenType
  | select | insert | into | values | from | where | create | table | delete | int | text
  | number | string | identifier
  | star | comma | lparen | rparen | semicolon | equals
  | eof | unknown
deriving DecidableEq, Repr

/-- A token: its type and the text it came from. -/
structure Token where
  type : TokenType
  value : Str
deriving DecidableEq, Repr

/-- A column definition of `CREATE TABLE`; its type is the text `INT` or `TEXT`. -/
structure ColumnDef where
  name : Str
  type : Str
deriving DecidableEq, Repr

/-- A `WHERE` clause: column = value. -/
structure WhereClause where
  column : Str := []
  value : Str := []
deriving DecidableEq, Repr

/-- The type of a statement. -/
inductive StatementType
  | createTable
  | insert
  | select
  | delete
deriving DecidableEq, Repr

/-- A parsed statement, with the initial values of its fields. -/
structure Statement where
  type : StatementType
  tableName : Str := []
  columns : List ColumnDef := []
  values : List Str := []
  selectColumns : List Str := []
  selectAll : Bool := false
  hasWhere : Bool := false
  where_ : WhereClause := {}
deriving DecidableEq, Repr

namespace Parser

/-- What ends a call: a `std::runtime_error` with its text, a read past the end of the tokens, or a
loop that outlives its fuel. -/
inductive ParseError
  | runtimeError (what : Str)
  | outOfRange
  | fuel
deriving DecidableEq, Repr

/-- `Parser::current`. -/
def current : List Token → Except ParseError Token
  | tok :: _ => .ok tok
  | [] => .error .outOfRange

/-- `Parser::advance`: the token, and the position after it. -/
def advance (ts : List Token) : Except ParseError (Token × List Token) := do
  let tok ← current ts
  if tok.type ≠ .eof then return (tok, ts.tail) else return (tok, ts)

/-- `Parser::check`. -/
def check (ts : List Token) (type : TokenType) : Except ParseError Bool := do
  let tok ← current ts
  return tok.type = type

/-- `Parser::match`. -/
def matchToken (ts : List Token) (type : TokenType) : Except ParseError (Bool × List Token) := do
  if ← check ts type then
    let (_, ts) ← advance ts
    return (true, ts)
  else return (false, ts)

/-- The errors of the parser: a message and the text of the current token. -/
def fail {α : Type} (ts : List Token) (msg : String) : Except ParseError α := do
  let tok ← current ts
  .error (.runtimeError (lit "Parse error: " ++ lit msg ++ lit " (got '" ++ tok.value ++ lit "')"))

/-- `Parser::expect`. -/
def expect (ts : List Token) (type : TokenType) (msg : String) :
    Except ParseError (Token × List Token) := do
  if ← check ts type then advance ts else fail ts msg

/-- The optional comma after a list element. -/
def skipComma (ts : List Token) : Except ParseError (List Token) := do
  if ← check ts .comma then
    let (_, ts) ← advance ts
    return ts
  else return ts

/-- The type of a column in `parseCreateTable`. -/
def parseColumnType (ts : List Token) : Except ParseError (Str × List Token) := do
  if ← check ts .int then
    let (_, ts) ← advance ts
    return (lit "INT", ts)
  else if ← check ts .text then
    let (_, ts) ← advance ts
    return (lit "TEXT", ts)
  else fail ts "expected column type INT or TEXT"

/-- The loop of `parseCreateTable` over the column definitions. -/
def parseColumns : ℕ → List Token → List ColumnDef →
    Except ParseError (List ColumnDef × List Token)
  | 0, _, _ => .error .fuel
  | fuel + 1, ts, cols => do
    if (← check ts .rparen) || (← check ts .eof) then return (cols, ts)
    else
      let (name, ts) ← expect ts .identifier "expected column name"
      let (type, ts) ← parseColumnType ts
      let ts ← skipComma ts
      parseColumns fuel ts (cols ++ [⟨name.value, type⟩])

/-- `Parser::parseCreateTable`. -/
def parseCreateTable (ts : List Token) : Except ParseError (Statement × List Token) := do
  let (_, ts) ← expect ts .create "expected CREATE"
  let (_, ts) ← expect ts .table "expected TABLE after CREATE"
  let (name, ts) ← expect ts .identifier "expected table name"
  let (_, ts) ← expect ts .lparen "expected '(' after table name"
  let (cols, ts) ← parseColumns (ts.length + 1) ts []
  let (_, ts) ← expect ts .rparen "expected ')' after column definitions"
  let (_, ts) ← matchToken ts .semicolon
  return ({ type := .createTable, tableName := name.value, columns := cols }, ts)

/-- A token that can stand for a value. -/
def isValue (ts : List Token) : Except ParseError Bool := do
  return (← check ts .number) || (← check ts .string) || (← check ts .identifier)

/-- The loop of `parseInsert` over the values. -/
def parseValues : ℕ → List Token → List Str → Except ParseError (List Str × List Token)
  | 0, _, _ => .error .fuel
  | fuel + 1, ts, vals => do
    if (← check ts .rparen) || (← check ts .eof) then return (vals, ts)
    else if ← isValue ts then
      let tok ← current ts
      let (_, ts) ← advance ts
      let ts ← skipComma ts
      parseValues fuel ts (vals ++ [tok.value])
    else fail ts "expected a value"

/-- `Parser::parseInsert`. -/
def parseInsert (ts : List Token) : Except ParseError (Statement × List Token) := do
  let (_, ts) ← expect ts .insert "expected INSERT"
  let (_, ts) ← expect ts .into "expected INTO after INSERT"
  let (name, ts) ← expect ts .identifier "expected table name"
  let (_, ts) ← expect ts .values "expected VALUES"
  let (_, ts) ← expect ts .lparen "expected '(' after VALUES"
  let (vals, ts) ← parseValues (ts.length + 1) ts []
  let (_, ts) ← expect ts .rparen "expected ')' after values"
  let (_, ts) ← matchToken ts .semicolon
  return ({ type := .insert, tableName := name.value, values := vals }, ts)

/-- `Parser::parseWhere`. -/
def parseWhere (ts : List Token) : Except ParseError (WhereClause × List Token) := do
  let (_, ts) ← expect ts .where "expected WHERE"
  let (col, ts) ← expect ts .identifier "expected column name in WHERE"
  let (_, ts) ← expect ts .equals "expected '=' in WHERE clause"
  if ← isValue ts then
    let tok ← current ts
    let (_, ts) ← advance ts
    return (⟨col.value, tok.value⟩, ts)
  else fail ts "expected a value after '=' in WHERE clause"

/-- The optional `WHERE` clause of `parseSelect` and `parseDelete`. -/
def parseOptWhere (stmt : Statement) (ts : List Token) :
    Except ParseError (Statement × List Token) := do
  if ← check ts .where then
    let (wc, ts) ← parseWhere ts
    return ({ stmt with hasWhere := true, where_ := wc }, ts)
  else return (stmt, ts)

/-- The loop of `parseSelect` over the column names. -/
def parseSelectColumns : ℕ → List Token → List Str → Except ParseError (List Str × List Token)
  | 0, _, _ => .error .fuel
  | fuel + 1, ts, cols => do
    let (col, ts) ← expect ts .identifier "expected column name"
    let (comma, ts) ← matchToken ts .comma
    if comma then parseSelectColumns fuel ts (cols ++ [col.value])
    else return (cols ++ [col.value], ts)

/-- The column list of `parseSelect`: `selectAll` and the names. -/
def parseSelectList (ts : List Token) : Except ParseError (Bool × List Str × List Token) := do
  let (star, ts) ← matchToken ts .star
  if star then return (true, [], ts)
  else
    let (cols, ts) ← parseSelectColumns (ts.length + 1) ts []
    return (false, cols, ts)

/-- `Parser::parseSelect`. -/
def parseSelect (ts : List Token) : Except ParseError (Statement × List Token) := do
  let (_, ts) ← expect ts .select "expected SELECT"
  let (selectAll, cols, ts) ← parseSelectList ts
  let (_, ts) ← expect ts .from "expected FROM"
  let (name, ts) ← expect ts .identifier "expected table name"
  let (stmt, ts) ← parseOptWhere
    { type := .select, tableName := name.value, selectColumns := cols, selectAll := selectAll } ts
  let (_, ts) ← matchToken ts .semicolon
  return (stmt, ts)

/-- `Parser::parseDelete`. -/
def parseDelete (ts : List Token) : Except ParseError (Statement × List Token) := do
  let (_, ts) ← expect ts .delete "expected DELETE"
  let (_, ts) ← expect ts .from "expected FROM after DELETE"
  let (name, ts) ← expect ts .identifier "expected table name"
  let (stmt, ts) ← parseOptWhere { type := .delete, tableName := name.value } ts
  let (_, ts) ← matchToken ts .semicolon
  return (stmt, ts)

/-- `Parser::parse`: the statement, and the tokens the parser has not consumed. -/
def parse (ts : List Token) : Except ParseError (Statement × List Token) := do
  if ← check ts .create then parseCreateTable ts
  else if ← check ts .insert then parseInsert ts
  else if ← check ts .select then parseSelect ts
  else if ← check ts .delete then parseDelete ts
  else fail ts "expected CREATE, INSERT, SELECT, or DELETE"

end Parser

end MiniDB
