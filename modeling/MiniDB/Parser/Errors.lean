import MiniDB.Foundations.LookAhead
import MiniDB.Parser.Printing

/-!
# Errors of the parser

The parser looks at one token at a time and stops at the first one that cannot stand where it is: the
tokens before it can be completed to a statement, and no statement begins with them and it. The
message of the error gives the text of that token.

## Main definitions

* `NamesToken`: the message of an error gives the text of a token

## Main results

* `error_at_first`: every error is at the first token that cannot stand there
-/

namespace MiniDB.Parser

open Lexer LookAhead

/-- The message of the error gives the text of the token. -/
def NamesToken (e : ParseError) (tok : Token) : Prop := ∃ msg : String,
  e = .runtimeError (lit "Parse error: " ++ lit msg ++ lit " (got '" ++ tok.value ++ lit "')")

/-- The types of tokens. -/
def Of (types : List TokenType) (tok : Token) : Prop := tok.type ∈ types

/-- The parser is guided by one token of the types `First`, and may be followed by `Follow`. -/
abbrev Led {α : Type} (First Follow : Token → Prop)
    (f : List Token → Except ParseError (α × List Token)) : Prop :=
  Guided (fun tok => tok.type = .eof) Spelled NamesToken First Follow f

section Tokens

variable {α : Type} {First Follow : Token → Prop} {type : TokenType} {msg : String}

theorem fail_cons (t : Token) (ts : List Token) : (fail (t :: ts) msg : Except ParseError α) =
    .error (.runtimeError (lit "Parse error: " ++ lit msg ++ lit " (got '" ++ t.value ++ lit "')")) :=
  rfl

theorem fail_bind {β : Type} (ts : List Token) (f : α → Except ParseError β) :
    (fail ts msg >>= f) = fail ts msg := by
  cases ts <;> rfl

theorem led_expect {text : Str} (htype : type ≠ .eof) (htext : Spelled ⟨type, text⟩) :
    Led (Of [type]) Follow fun ts => expect ts type msg := by
  refine Guided.token id ⟨type, text⟩ (fun t ts ht => ?_) (fun t ts ht => ?_) (fun t => ⟨msg, rfl⟩) ?_
    (List.mem_singleton.mpr rfl) htext
  · exact expect_cons (List.mem_singleton.mp ht) htype
  · rw [expect, check_cons, Machine.ok_bind, if_neg (by simpa [Of] using ht), fail_cons]
  · intro t ht heof
    exact htype ((List.mem_singleton.mp ht).symm.trans heof)

/-- A keyword or a symbol. -/
theorem led_keyword (htype : type ∈ keywords.map Prod.snd ++ symbols.map Prod.snd) :
    Led (Of [type]) Follow fun ts => expect ts type msg := by
  have hne : ∀ type ∈ keywords.map Prod.snd ++ symbols.map Prod.snd, type ≠ .eof := by decide
  exact led_expect (hne type htype) (spelled_keyword htype)

theorem spelled_name : Spelled ⟨.identifier, lit "a"⟩ := by
  rw [show lit "a" = [97] by decide]
  exact .identifier (by decide) (by simp) (by decide)

theorem led_identifier : Led (Of [.identifier]) Follow fun ts => expect ts .identifier msg :=
  led_expect (by decide) spelled_name

section Then

variable {β : Type} {k : Token × List Token → Except ParseError (β × List Token)}

theorem then_keyword (htype : type ∈ keywords.map Prod.snd ++ symbols.map Prod.snd)
    (hk : ∀ tok, Led First Follow fun ts => k (tok, ts)) :
    Led (Of [type]) Follow fun ts => expect ts type msg >>= k :=
  (led_keyword htype).bind hk fun _ h => h

theorem then_identifier (hk : ∀ tok, Led First Follow fun ts => k (tok, ts)) :
    Led (Of [.identifier]) Follow fun ts => expect ts .identifier msg >>= k :=
  led_identifier.bind hk fun _ h => h

end Then

/-- An optional token, in front of others only. -/
theorem led_optional {k : List Token → Except ParseError (α × List Token)} (a : α)
    (htype : type ∈ keywords.map Prod.snd ++ symbols.map Prod.snd)
    (htake : ∀ t ts, t.type = type → k (t :: ts) = .ok (a, ts))
    (hskip : ∀ t ts, t.type ≠ type → k (t :: ts) = .ok (a, t :: ts))
    (hfollow : ∀ t, Follow t → t.type ≠ type) :
    Led (fun t => Of [type] t ∨ Follow t) Follow k := by
  have hne : ∀ type ∈ keywords.map Prod.snd ++ symbols.map Prod.snd, type ≠ .eof := by decide
  have htoken : Led (Of [type]) Follow fun ts => (expect ts type "" >>= fun r => .ok (a, r.2)) :=
    (led_keyword htype).bind (fun _ => Guided.pure a) fun _ h => h
  refine htoken.branch (Guided.pure a) (Of [type]) (fun t => t.type ≠ type) ?_ ?_ ?_
    (fun _ h => h) hfollow
  · rintro (_ | ⟨t, ts⟩) hts
    · cases hts
    · have ht : t.type = type := List.mem_singleton.mp hts
      rw [htake t ts ht, expect_cons ht (hne type htype)]
      rfl
  · rintro (_ | ⟨t, ts⟩) hts
    · cases hts
    · exact hskip t ts hts
  · intro t
    by_cases ht : t.type = type
    · exact Or.inl (List.mem_singleton.mpr ht)
    · exact Or.inr ht

/-- The optional semicolon at the end of a statement. -/
theorem led_semicolon (a : α) : Led (Of [.semicolon, .eof]) (Of [.eof]) fun ts => do
    let (_, ts) ← matchToken ts .semicolon
    return (a, ts) := by
  refine (led_optional a (by decide : TokenType.semicolon ∈ _) (fun t ts ht => ?_)
    (fun t ts ht => ?_) fun t ht => ?_).mono fun t ht => ?_
  · rw [matchToken_cons ht (by decide)]
    rfl
  · rw [matchToken_cons_ne ht (by decide)]
    rfl
  · rw [List.mem_singleton.mp ht]
    decide
  · simpa [Of] using ht

/-- The optional comma behind an element. -/
theorem led_comma (a : α) (hfollow : ∀ t, Follow t → t.type ≠ .comma) :
    Led (fun t => Of [.comma] t ∨ Follow t) Follow fun ts => do
      let ts ← skipComma ts
      return (a, ts) := by
  refine led_optional a (by decide) (fun t ts ht => ?_) (fun t ts ht => ?_) hfollow
  · simp [skipComma, check_cons, ht, advance_cons]
  · simp [skipComma, check_cons, ht]

/-- The token of a value. -/
def valueToken (msg : String) (ts : List Token) : Except ParseError (Str × List Token) := do
  if ← isValue ts then
    let tok ← current ts
    let (_, ts) ← advance ts
    return (tok.value, ts)
  else fail ts msg

theorem valueToken_cons {t : Token} {ts : List Token} (ht : IsValue t) :
    valueToken msg (t :: ts) = .ok (t.value, ts) := by
  rw [valueToken, isValue_cons.mpr (iff_of_true rfl ht)]
  simp [advance_cons ht.ne.1]

theorem valueToken_cons_not {t : Token} {ts : List Token} (ht : ¬ IsValue t) :
    valueToken msg (t :: ts) = fail (t :: ts) msg := by
  have hvalue : isValue (t :: ts) = .ok false := isValue_cons.mpr (iff_of_false (by simp) ht)
  rw [valueToken, hvalue]
  rfl

theorem led_valueToken : Led IsValue Follow (valueToken msg) :=
  Guided.token Token.value ⟨.identifier, lit "a"⟩ (fun _ _ ht => valueToken_cons ht)
    (fun _ _ ht => valueToken_cons_not ht) (fun _ => ⟨msg, rfl⟩) (fun _ ht => ht.ne.1)
    (Or.inr (Or.inr rfl)) spelled_name

/-- The type of a column. -/
theorem led_columnType : Led (Of [.int, .text]) Follow parseColumnType := by
  refine Guided.token (fun t => if t.type = .int then lit "INT" else lit "TEXT")
    ⟨.int, keywordText .int⟩ (fun t ts ht => ?_) (fun t ts ht => ?_)
    (fun t => ⟨"expected column type INT or TEXT", rfl⟩) ?_ List.mem_cons_self
    (spelled_keyword (by decide))
  · obtain ht | ht : t.type = .int ∨ t.type = .text := by simpa [Of] using ht
    · simp [parseColumnType, check_cons, ht, advance_cons]
    · simp [parseColumnType, check_cons, ht, advance_cons]
  · have hint : t.type ≠ .int := fun h => ht (by simp [Of, h])
    have htext : t.type ≠ .text := fun h => ht (by simp [Of, h])
    simp [parseColumnType, check_cons, hint, htext, fail_cons]
  · intro t ht heof
    rw [Of, heof] at ht
    exact absurd ht (by decide)

end Tokens

/-! ## The parts of a statement -/

/-- A round of the loop of `parseCreateTable`. -/
def column (ts : List Token) : Except ParseError (ColumnDef × List Token) := do
  let (name, ts) ← expect ts .identifier "expected column name"
  let (type, ts) ← parseColumnType ts
  let ts ← skipComma ts
  return (⟨name.value, type⟩, ts)

theorem led_column : Led (Of [.identifier]) (Of [.rparen, .eof]) column := by
  have hcomma : ∀ (name : Token) (type : Str),
      Led (fun t => Of [.comma] t ∨ Of [.rparen, .eof] t) (Of [.rparen, .eof]) fun ts => do
        let ts ← skipComma ts
        return ((⟨name.value, type⟩ : ColumnDef), ts) := by
    refine fun name type => led_comma _ fun t ht => ?_
    rcases List.mem_pair.mp ht with h | h <;> rw [h] <;> decide
  have htype : ∀ name : Token, Led (Of [.int, .text]) (Of [.rparen, .eof]) fun ts => do
      let (type, ts) ← parseColumnType ts
      let ts ← skipComma ts
      return ((⟨name.value, type⟩ : ColumnDef), ts) :=
    fun name => led_columnType.bind (hcomma name) fun _ h => h
  exact led_identifier.bind htype fun _ h => h

theorem length_skipComma {ts rest : List Token} (h : skipComma ts = .ok rest) :
    rest.length ≤ ts.length := by
  obtain ⟨comma, -, rfl, -⟩ := skipComma_eq_ok.mp h
  simp

theorem length_column {ts rest : List Token} {col : ColumnDef} (h : column ts = .ok (col, rest)) :
    rest.length < ts.length := by
  simp only [column, Machine.bind_eq_ok, Prod.exists, expect_eq_ok, ne_eq, reduceCtorEq,
    not_false_eq_true, Machine.pure_eq_ok, Except.ok.injEq, Prod.mk.injEq] at h
  obtain ⟨name, ts₁, ⟨rfl, -⟩, type, ts₂, htype, ts₃, hcomma, -, rfl⟩ := h
  obtain ⟨tok, -, rfl⟩ := parseColumnType_eq_ok.mp htype
  have hle := length_skipComma hcomma
  simp only [List.length_cons]
  omega

/-- A round of the loop of `parseInsert`. -/
def value (ts : List Token) : Except ParseError (Str × List Token) := do
  if ← isValue ts then
    let tok ← current ts
    let (_, ts) ← advance ts
    let ts ← skipComma ts
    return (tok.value, ts)
  else fail ts "expected a value"

theorem value_eq : value = fun ts => valueToken "expected a value" ts >>= fun r => do
    let ts ← skipComma r.2
    return (r.1, ts) := by
  funext ts
  unfold value valueToken
  cases isValue ts with
  | error e => rfl
  | ok b => cases b <;> simp [bind_assoc, fail_bind]

theorem led_value : Led IsValue (Of [.rparen, .eof]) value := by
  have hcomma : ∀ val : Str, Led (fun t => Of [.comma] t ∨ Of [.rparen, .eof] t) (Of [.rparen, .eof])
      fun ts => do
        let ts ← skipComma ts
        return (val, ts) := by
    refine fun val => led_comma _ fun t ht => ?_
    rcases List.mem_pair.mp ht with h | h <;> rw [h] <;> decide
  rw [value_eq]
  exact led_valueToken.bind hcomma fun _ h => h

theorem length_value {ts rest : List Token} {val : Str} (h : value ts = .ok (val, rest)) :
    rest.length < ts.length := by
  rw [value_eq] at h
  cases ts with
  | nil => cases h
  | cons t ts =>
    by_cases ht : IsValue t
    · simp only [valueToken_cons ht, Machine.ok_bind, Machine.bind_eq_ok] at h
      obtain ⟨ts', hcomma, h⟩ := h
      obtain ⟨-, rfl⟩ := Prod.mk.inj (Except.ok.inj h)
      exact Nat.lt_succ_of_le (length_skipComma hcomma)
    · simp only [valueToken_cons_not ht, fail_bind] at h
      exact absurd h fail_ne_ok

/-- The loops over columns and over values stop at `)` and at `EOF`. -/
theorem led_parseColumns (cols : List ColumnDef) : Led (Of [.rparen, .eof]) (Of [.rparen, .eof])
    fun ts => parseColumns (ts.length + 1) ts cols := by
  refine led_column.fueled (fun cols col => cols ++ [col]) (fun fuel cols => rfl)
    ?_ ?_ length_column (fun _ h => h) cols
  · rintro fuel (_ | ⟨t, ts⟩) cols hts
    · cases hts
    · have ht : t.type = .rparen ∨ t.type = .eof := List.mem_pair.mp hts
      simp [parseColumns, check_cons, ht]
  · rintro fuel (_ | ⟨t, ts⟩) cols hts
    · cases hts
    · have ht : ¬ (t.type = .rparen ∨ t.type = .eof) := fun h => hts (List.mem_pair.mpr h)
      have ht' := not_or.mp ht
      simp [parseColumns, check_cons, ht', column, bind_assoc]

theorem led_parseValues (vals : List Str) : Led (Of [.rparen, .eof]) (Of [.rparen, .eof])
    fun ts => parseValues (ts.length + 1) ts vals := by
  refine led_value.fueled (fun vals val => vals ++ [val]) (fun fuel vals => rfl)
    ?_ ?_ length_value (fun _ h => h) vals
  · rintro fuel (_ | ⟨t, ts⟩) vals hts
    · cases hts
    · have ht : t.type = .rparen ∨ t.type = .eof := List.mem_pair.mp hts
      simp [parseValues, check_cons, ht]
  · rintro fuel (_ | ⟨t, ts⟩) vals hts
    · cases hts
    · have ht := not_or.mp fun h => hts (List.mem_pair.mpr h)
      simp only [parseValues, check_cons, Machine.ok_bind, ht, decide_false, Bool.or_self,
        Bool.false_eq_true, if_false, value]
      cases isValue (t :: ts) with
      | error e => rfl
      | ok b => cases b <;> simp [bind_assoc, fail_bind]

/-- What `parseSelect` does behind a column name. -/
def moreColumns (fuel : ℕ) (ts : List Token) (cols : List Str) :
    Except ParseError (List Str × List Token) := do
  let (comma, ts) ← matchToken ts .comma
  if comma then parseSelectColumns fuel ts cols else return (cols, ts)

/-- The next column name of the list. -/
def nextColumn (ts : List Token) : Except ParseError (Token × List Token) := do
  let (_, ts) ← expect ts .comma ""
  expect ts .identifier "expected column name"

theorem led_moreColumns (cols : List Str) :
    Led (fun t => ¬ Of [.comma] t) (fun t => ¬ Of [.comma] t)
      fun ts => moreColumns (ts.length + 1) ts cols := by
  have hnext : Led (Of [.comma]) (fun t => ¬ Of [.comma] t) nextColumn :=
    (led_keyword (by decide)).bind (fun _ => led_identifier) fun _ h => h
  refine hnext.fueled (fun cols tok => cols ++ [tok.value]) (fun fuel cols => rfl) ?_ ?_ ?_
    (fun _ h => h) cols
  · rintro fuel (_ | ⟨t, ts⟩) cols hts
    · cases hts
    · have ht : t.type ≠ .comma := fun h => hts (List.mem_singleton.mpr h)
      rw [moreColumns, matchToken_cons_ne ht (by decide)]
      rfl
  · rintro fuel (_ | ⟨t, ts⟩) cols hts
    · cases hts
    · have ht : t.type = .comma := List.mem_singleton.mp (not_not.mp hts)
      rw [moreColumns, matchToken_cons ht (by decide), nextColumn, expect_cons ht (by decide)]
      rfl
  · intro ts tok rest h
    simp only [nextColumn, Machine.bind_eq_ok, Prod.exists, expect_eq_ok, ne_eq, reduceCtorEq,
      not_false_eq_true] at h
    obtain ⟨comma, ts₁, ⟨rfl, -⟩, rfl, -⟩ := h
    simp

/-- The list of column names. -/
theorem led_parseSelectColumns : Led (Of [.identifier]) (fun t => ¬ Of [.comma] t)
    fun ts => parseSelectColumns (ts.length + 1) ts [] := by
  have heq : (fun ts => parseSelectColumns (ts.length + 1) ts []) = fun ts =>
      expect ts .identifier "expected column name" >>= fun r =>
        moreColumns (r.2.length + 1) r.2 [r.1.value] := by
    funext ts
    rw [parseSelectColumns]
    cases hexpect : expect ts .identifier "expected column name" with
    | error e => rfl
    | ok r =>
      obtain ⟨tok, rest⟩ := r
      obtain ⟨rfl, -⟩ := (expect_eq_ok (by decide)).mp hexpect
      rfl
  rw [heq]
  exact led_identifier.bind (fun tok => (led_moreColumns [tok.value]).mono fun _ h => h) fun _ h => h

/-- `parseSelectList`, the list apart from the tokens that are left. -/
def selectList (ts : List Token) : Except ParseError ((Bool × List Str) × List Token) :=
  parseSelectList ts >>= fun r => .ok ((r.1, r.2.1), r.2.2)

/-- The select list and what may follow it. -/
theorem led_selectList : Led (fun t => Of [.star] t ∨ Of [.identifier] t)
    (fun t => ¬ Of [.comma] t) selectList := by
  have hstar : Led (Of [.star]) (fun t => ¬ Of [.comma] t) fun ts =>
      expect ts .star "" >>= fun r => .ok ((true, ([] : List Str)), r.2) :=
    (led_keyword (by decide)).bind (fun _ => Guided.pure _) fun _ h => h
  have hnames : Led (Of [.identifier]) (fun t => ¬ Of [.comma] t) fun ts =>
      parseSelectColumns (ts.length + 1) ts [] >>= fun r => .ok ((false, r.1), r.2) :=
    led_parseSelectColumns.bind (fun cols => Guided.pure (false, cols)) fun _ h => h
  refine hstar.branch hnames (Of [.star]) (fun t => t.type ≠ .star) ?_ ?_ ?_
    (fun _ h => h) ?_
  · rintro (_ | ⟨t, ts⟩) hts
    · cases hts
    · have ht : t.type = .star := List.mem_singleton.mp hts
      rw [selectList, parseSelectList, matchToken_cons ht (by decide), expect_cons ht (by decide)]
      rfl
  · rintro (_ | ⟨t, ts⟩) hts
    · cases hts
    · rw [selectList, parseSelectList, matchToken_cons_ne hts (by decide)]
      simp [bind_assoc]
  · intro t
    by_cases ht : t.type = .star
    · exact Or.inl (List.mem_singleton.mpr ht)
    · exact Or.inr ht
  · intro t ht
    rw [List.mem_singleton.mp ht]
    decide

theorem led_parseWhere : Led (Of [.where]) Follow parseWhere := by
  have heq : parseWhere = fun ts => do
      let (_, ts) ← expect ts .where "expected WHERE"
      let (col, ts) ← expect ts .identifier "expected column name in WHERE"
      let (_, ts) ← expect ts .equals "expected '=' in WHERE clause"
      let (val, ts) ← valueToken "expected a value after '=' in WHERE clause" ts
      return (⟨col.value, val⟩, ts) := by
    have hvalue : ∀ (col : Token) (ts : List Token), (do
        if ← isValue ts then
          let tok ← current ts
          let (_, ts) ← advance ts
          return ((⟨col.value, tok.value⟩ : WhereClause), ts)
        else fail ts "expected a value after '=' in WHERE clause") = do
        let (val, ts) ← valueToken "expected a value after '=' in WHERE clause" ts
        return (⟨col.value, val⟩, ts) := by
      intro col ts
      unfold valueToken
      cases isValue ts with
      | error e => rfl
      | ok b => cases b <;> simp [bind_assoc, fail_bind]
    funext ts
    simp only [parseWhere, hvalue]
  rw [heq]
  exact then_keyword (by decide) fun _ => then_identifier fun col => then_keyword (by decide)
    fun _ => led_valueToken.bind (fun val => Guided.pure _) fun _ h => h

/-- The optional `WHERE` clause. -/
theorem led_parseOptWhere (stmt : Statement) :
    Led (fun t => Of [.where] t ∨ Of [.semicolon, .eof] t) (Of [.semicolon, .eof])
      (parseOptWhere stmt) := by
  have hwhere : Led (Of [.where]) (Of [.semicolon, .eof]) fun ts =>
      parseWhere ts >>= fun r => .ok ({ stmt with hasWhere := true, where_ := r.1 }, r.2) :=
    led_parseWhere.bind (fun wc => Guided.pure { stmt with hasWhere := true, where_ := wc })
      fun _ h => h
  refine hwhere.branch (Guided.pure stmt) (Of [.where]) (fun t => t.type ≠ .where) ?_ ?_ ?_
    (fun _ h => h) ?_
  · rintro (_ | ⟨t, ts⟩) hts
    · cases hts
    · have ht : t.type = .where := List.mem_singleton.mp hts
      simp [parseOptWhere, check_cons, ht]
  · rintro (_ | ⟨t, ts⟩) hts
    · cases hts
    · have ht : t.type ≠ .where := hts
      simp [parseOptWhere, check_cons, ht]
  · intro t
    by_cases ht : t.type = .where
    · exact Or.inl (List.mem_singleton.mpr ht)
    · exact Or.inr ht
  · intro t ht
    rcases List.mem_pair.mp ht with h | h <;> rw [h] <;> decide

/-! ## Statements -/

theorem led_parseCreateTable : Led (Of [.create]) (Of [.eof]) parseCreateTable := by
  have hend : ∀ (name : Token) (cols : List ColumnDef), Led (Of [.rparen]) (Of [.eof]) fun ts => do
      let (_, ts) ← expect ts .rparen "expected ')' after column definitions"
      let (_, ts) ← matchToken ts .semicolon
      return ({ type := .createTable, tableName := name.value, columns := cols : Statement }, ts) :=
    fun name cols => then_keyword (by decide) fun _ => led_semicolon _
  exact then_keyword (by decide) fun _ => then_keyword (by decide) fun _ => then_identifier fun name =>
    then_keyword (by decide) fun _ => (led_parseColumns []).bind (hend name) fun _ h => by
      rw [Of, List.mem_singleton.mp h]
      decide

theorem led_parseInsert : Led (Of [.insert]) (Of [.eof]) parseInsert := by
  have hend : ∀ (name : Token) (vals : List Str), Led (Of [.rparen]) (Of [.eof]) fun ts => do
      let (_, ts) ← expect ts .rparen "expected ')' after values"
      let (_, ts) ← matchToken ts .semicolon
      return ({ type := .insert, tableName := name.value, values := vals : Statement }, ts) :=
    fun name vals => then_keyword (by decide) fun _ => led_semicolon _
  exact then_keyword (by decide) fun _ => then_keyword (by decide) fun _ => then_identifier fun name =>
    then_keyword (by decide) fun _ => then_keyword (by decide) fun _ =>
      (led_parseValues []).bind (hend name) fun _ h => by
        rw [Of, List.mem_singleton.mp h]
        decide

theorem led_parseDelete : Led (Of [.delete]) (Of [.eof]) parseDelete :=
  then_keyword (by decide) fun _ => then_keyword (by decide) fun _ => then_identifier fun name =>
    (led_parseOptWhere { type := .delete, tableName := name.value }).bind
      (fun stmt => led_semicolon stmt) fun _ h => h

/-- `parseSelect` behind the select list. -/
def afterSelectList (list : Bool × List Str) (ts : List Token) :
    Except ParseError (Statement × List Token) := do
  let (_, ts) ← expect ts .from "expected FROM"
  let (name, ts) ← expect ts .identifier "expected table name"
  let (stmt, ts) ← parseOptWhere
    { type := .select, tableName := name.value, selectColumns := list.2, selectAll := list.1 } ts
  let (_, ts) ← matchToken ts .semicolon
  return (stmt, ts)

theorem led_afterSelectList (list : Bool × List Str) :
    Led (Of [.from]) (Of [.eof]) (afterSelectList list) :=
  then_keyword (by decide) fun _ => then_identifier fun _ =>
    (led_parseOptWhere _).bind (fun stmt => led_semicolon stmt) fun _ h => h

theorem led_parseSelect : Led (Of [.select]) (Of [.eof]) parseSelect := by
  have heq : parseSelect = fun ts => expect ts .select "expected SELECT" >>= fun r =>
      selectList r.2 >>= fun r => afterSelectList r.1 r.2 := by
    funext ts
    rw [parseSelect]
    refine congrArg (expect ts .select "expected SELECT" >>= ·) (funext fun r => ?_)
    show (parseSelectList r.2 >>= _) = _
    rw [selectList]
    cases parseSelectList r.2 <;> rfl
  rw [heq]
  refine then_keyword (by decide) fun _ => led_selectList.bind led_afterSelectList fun t h => ?_
  rw [Of, List.mem_singleton.mp h]
  decide

/-- A choice between statements by their first keyword. -/
theorem led_statement {First : Token → Prop} {f g : List Token → Except ParseError (Statement × List Token)}
    {type : TokenType} (hf : Led (Of [type]) (Of [.eof]) f) (hg : Led First (Of [.eof]) g)
    (hfirst : ∀ t, First t → t.type ≠ type) : Led (fun t => Of [type] t ∨ First t) (Of [.eof])
      (fun ts => do if ← check ts type then f ts else g ts) := by
  refine hf.branch hg (Of [type]) (fun t => t.type ≠ type) ?_ ?_ ?_ (fun _ h => h) hfirst
  · rintro (_ | ⟨t, ts⟩) hts
    · cases hts
    · have ht : t.type = type := List.mem_singleton.mp hts
      simp [check_cons, ht]
  · rintro (_ | ⟨t, ts⟩) hts
    · cases hts
    · have ht : t.type ≠ type := hts
      simp [check_cons, ht]
  · intro t
    by_cases ht : t.type = type
    · exact Or.inl (List.mem_singleton.mpr ht)
    · exact Or.inr ht

theorem led_parse : ∃ First, Led First (Of [.eof]) parse := by
  have hdelete : Led (Of [.delete]) (Of [.eof]) (fun ts => do
      if ← check ts .delete then parseDelete ts
      else fail ts "expected CREATE, INSERT, SELECT, or DELETE") := by
    refine led_parseDelete.orElse (c := Of [.delete]) ?_ ?_
      (fun t => ⟨"expected CREATE, INSERT, SELECT, or DELETE", rfl⟩) fun _ h => h
    · rintro (_ | ⟨t, ts⟩) hts
      · cases hts
      · have ht : t.type = .delete := List.mem_singleton.mp hts
        simp [check_cons, ht]
    · intro t ts ht
      have ht : t.type ≠ .delete := fun h => ht (List.mem_singleton.mpr h)
      simp [check_cons, ht, fail_cons]
  have hselect := led_statement led_parseSelect hdelete fun t ht => by
    rw [List.mem_singleton.mp ht]
    decide
  have hinsert := led_statement led_parseInsert hselect fun t ht => by
    rcases ht with ht | ht <;> rw [List.mem_singleton.mp ht] <;> decide
  have hcreate := led_statement led_parseCreateTable hinsert fun t ht => by
    rcases ht with ht | ht | ht <;> rw [List.mem_singleton.mp ht] <;> decide
  exact ⟨_, hcreate⟩

/-! ## Errors -/

/-- Every error of the parser is at the first token that cannot stand where it is, and gives the text
of that token: the tokens before it are completed to an accepted statement, and with it the parser
ends with the same error whatever comes behind. -/
theorem error_at_first {input : Str} {e : ParseError} (h : parse (handleInput input) = .error e) :
    ∃ front t rest, handleInput input = front ++ t :: rest ∧ NamesToken e t ∧
      (∀ rest', parse (front ++ t :: rest') = .error e) ∧
      ∃ more stmt, (∀ tok ∈ more, Spelled tok) ∧
        parse (front ++ (more ++ [⟨.eof, []⟩])) = .ok (stmt, [⟨.eof, []⟩]) := by
  obtain ⟨First, hled⟩ := led_parse
  have hend : ∃ t ∈ handleInput input, t.type = .eof := by
    rw [handleInput_eq]
    exact ⟨⟨.eof, []⟩, List.mem_append_right _ (List.mem_singleton_self _), rfl⟩
  obtain ⟨front, t, rest, hsplit, hnames, -, hsame, more, stmt, hmore⟩ := hled.error hend h
  refine ⟨front, t, rest, hsplit, hnames, hsame, more, stmt, hmore.good, ?_⟩
  exact hmore.parses [⟨.eof, []⟩] (List.mem_singleton.mpr rfl)

/-- `SELECT a FROM t WHERE b 1`: the error is at the `1`. -/
theorem error_at_first_where :
    let e := ParseError.runtimeError (lit "Parse error: expected '=' in WHERE clause (got '1')")
    ∃ front t rest, handleInput (lit "SELECT a FROM t WHERE b 1") = front ++ t :: rest ∧
      NamesToken e t ∧ (∀ rest', parse (front ++ t :: rest') = .error e) ∧
      ∃ more stmt, (∀ tok ∈ more, Spelled tok) ∧
        parse (front ++ (more ++ [⟨.eof, []⟩])) = .ok (stmt, [⟨.eof, []⟩]) :=
  error_at_first (by decide)

end MiniDB.Parser
