import MiniDB.Parser.Parser

/-!
# The language the parser accepts

A grammar for the four statements, written down independently of the parser, with the statement
each derivation denotes; a comma after a column or a value is optional, as it is in the parser. The
parser returns a statement and stops at `rest` exactly when the tokens before `rest` derive that
statement, with its optional semicolon, and the next token cannot prolong it. It never looks at what
stands at `rest`, so a complete statement followed by anything is accepted.

## Main definitions

* `Columns`, `Values`, `Names`, `Core`: the grammar
* `Leaves stmt core tokens rest`: the statement takes `core` and its optional semicolon
* `TrailingToken tokens`: a complete statement is followed by a token that is not `EOF`

## Main results

* `parse_eq_ok`: the parser is the grammar
* `parse_consumes_iff`: when every accepted statement ends at `EOF`
-/

namespace MiniDB.Parser

/-! ## The grammar -/

/-- A column type and its text. -/
def ColumnType (tok : Token) (type : Str) : Prop :=
  (tok.type = .int ∧ type = lit "INT") ∨ (tok.type = .text ∧ type = lit "TEXT")

/-- At most one comma. -/
def OptComma (ts : List Token) : Prop := ts = [] ∨ ∃ t, t.type = .comma ∧ ts = [t]

/-- A token that can stand for a value. -/
def IsValue (tok : Token) : Prop :=
  tok.type = .number ∨ tok.type = .string ∨ tok.type = .identifier

/-- Column definitions, each followed by at most one comma. -/
inductive Columns : List Token → List ColumnDef → Prop
  | nil : Columns [] []
  | cons {name tok : Token} {type : Str} {comma ts : List Token} {cols : List ColumnDef} :
    name.type = .identifier → ColumnType tok type → OptComma comma → Columns ts cols →
      Columns (name :: tok :: (comma ++ ts)) (⟨name.value, type⟩ :: cols)

/-- Values, each followed by at most one comma. -/
inductive Values : List Token → List Str → Prop
  | nil : Values [] []
  | cons {tok : Token} {comma ts : List Token} {vals : List Str} :
    IsValue tok → OptComma comma → Values ts vals → Values (tok :: (comma ++ ts)) (tok.value :: vals)

/-- One or more names, separated by commas. -/
inductive Names : List Token → List Str → Prop
  | one {name : Token} : name.type = .identifier → Names [name] [name.value]
  | cons {name comma : Token} {ts : List Token} {names : List Str} :
    name.type = .identifier → comma.type = .comma → Names ts names →
      Names (name :: comma :: ts) (name.value :: names)

/-- The select list: a star, or names. -/
inductive SelectList : List Token → Bool → List Str → Prop
  | star {tok : Token} : tok.type = .star → SelectList [tok] true []
  | names {ts : List Token} {names : List Str} : Names ts names → SelectList ts false names

/-- A `WHERE` clause. -/
inductive Where : List Token → WhereClause → Prop
  | clause {tok col eq val : Token} : tok.type = .where → col.type = .identifier →
    eq.type = .equals → IsValue val → Where [tok, col, eq, val] ⟨col.value, val.value⟩

/-- An optional `WHERE` clause, added to a statement. -/
inductive OptWhere (stmt : Statement) : List Token → Statement → Prop
  | none : OptWhere stmt [] stmt
  | some {ts : List Token} {wc : WhereClause} : Where ts wc →
    OptWhere stmt ts { stmt with hasWhere := true, where_ := wc }

/-- A statement without its semicolon. -/
inductive Core : List Token → Statement → Prop
  | create {create table name lparen rparen : Token} {ts : List Token} {cols : List ColumnDef} :
    create.type = .create → table.type = .table → name.type = .identifier →
      lparen.type = .lparen → Columns ts cols → rparen.type = .rparen →
      Core (create :: table :: name :: lparen :: (ts ++ [rparen]))
        { type := .createTable, tableName := name.value, columns := cols }
  | insert {insert into name values lparen rparen : Token} {ts : List Token} {vals : List Str} :
    insert.type = .insert → into.type = .into → name.type = .identifier →
      values.type = .values → lparen.type = .lparen → Values ts vals → rparen.type = .rparen →
      Core (insert :: into :: name :: values :: lparen :: (ts ++ [rparen]))
        { type := .insert, tableName := name.value, values := vals }
  | select {select from' name : Token} {ts wh : List Token} {all : Bool} {cols : List Str}
      {stmt : Statement} :
    select.type = .select → SelectList ts all cols → from'.type = .from →
      name.type = .identifier →
      OptWhere { type := .select, tableName := name.value, selectColumns := cols
                 selectAll := all } wh stmt →
      Core (select :: (ts ++ from' :: name :: wh)) stmt
  | delete {delete from' name : Token} {wh : List Token} {stmt : Statement} :
    delete.type = .delete → from'.type = .from → name.type = .identifier →
      OptWhere { type := .delete, tableName := name.value } wh stmt →
      Core (delete :: from' :: name :: wh) stmt

/-- The statement can still take a `WHERE` clause. -/
def TakesWhere (stmt : Statement) : Prop :=
  (stmt.type = .select ∨ stmt.type = .delete) ∧ stmt.hasWhere = false

/-- Of `tokens` the statement takes `core` and a semicolon if there is one, and leaves `rest`: the
first token there cannot prolong it. -/
def Leaves (stmt : Statement) (core tokens rest : List Token) : Prop :=
  (∃ semi : Token, semi.type = .semicolon ∧ tokens = core ++ semi :: rest) ∨
    ∃ t ts, rest = t :: ts ∧ tokens = core ++ rest ∧ t.type ≠ .semicolon ∧
      (TakesWhere stmt → t.type ≠ .where)

/-- A complete statement is followed by a token that neither prolongs it nor is `EOF`. -/
def TrailingToken (tokens : List Token) : Prop :=
  ∃ core stmt t rest, Core core stmt ∧ Leaves stmt core tokens (t :: rest) ∧ t.type ≠ .eof

/-! ## Single tokens -/

section Tokens

variable {t tok : Token} {ts ts' rest : List Token} {type : TokenType} {msg : String}

@[simp] theorem current_cons : current (t :: ts) = .ok t := rfl

theorem check_cons : check (t :: ts) type = .ok (decide (t.type = type)) := rfl

theorem advance_cons (h : t.type ≠ .eof) : advance (t :: ts) = .ok (t, ts) := by
  simp [advance, h]

theorem fail_ne_ok {α : Type} {a : α} : (fail ts msg : Except ParseError α) ≠ .ok a := by
  cases ts <;> simp [fail, current]

theorem expect_eq_ok (h : type ≠ .eof) :
    expect ts type msg = .ok (tok, ts') ↔ ts = tok :: ts' ∧ tok.type = type := by
  cases ts with
  | nil => simp [expect, check, current]
  | cons t ts =>
    by_cases ht : t.type = type
    · have hne : t.type ≠ .eof := ht ▸ h
      simp only [expect, check_cons, Machine.ok_bind, ht, decide_true, if_true, advance_cons hne,
        Except.ok.injEq, Prod.mk.injEq, List.cons.injEq]
      constructor
      · rintro ⟨rfl, rfl⟩
        exact ⟨⟨rfl, rfl⟩, ht⟩
      · rintro ⟨⟨rfl, rfl⟩, -⟩
        exact ⟨rfl, rfl⟩
    · simp only [expect, check_cons, Machine.ok_bind, ht, decide_false, Bool.false_eq_true, if_false,
        fail_ne_ok, false_iff]
      rintro ⟨heq, htok⟩
      obtain ⟨rfl, rfl⟩ := List.cons.inj heq
      exact ht htok

theorem matchToken_eq_ok (h : type ≠ .eof) {b : Bool} : matchToken ts type = .ok (b, ts') ↔
    (∃ t, t.type = type ∧ b = true ∧ ts = t :: ts') ∨
      ∃ t tl, t.type ≠ type ∧ b = false ∧ ts = t :: tl ∧ ts' = ts := by
  cases ts with
  | nil => simp [matchToken, check, current]
  | cons t ts =>
    by_cases ht : t.type = type
    · have hne : t.type ≠ .eof := ht ▸ h
      simp only [matchToken, check_cons, Machine.ok_bind, ht, decide_true, if_true,
        advance_cons hne, Machine.pure_eq_ok, Except.ok.injEq, Prod.mk.injEq]
      constructor
      · rintro ⟨rfl, rfl⟩
        exact Or.inl ⟨t, ht, rfl, rfl⟩
      · rintro (⟨t', -, rfl, heq⟩ | ⟨t', tl, hne', -, heq, -⟩)
        · obtain ⟨rfl, rfl⟩ := List.cons.inj heq
          exact ⟨rfl, rfl⟩
        · obtain ⟨rfl, rfl⟩ := List.cons.inj heq
          exact absurd ht hne'
    · simp only [matchToken, check_cons, Machine.ok_bind, ht, decide_false, Bool.false_eq_true,
        if_false, Machine.pure_eq_ok, Except.ok.injEq, Prod.mk.injEq]
      constructor
      · rintro ⟨rfl, rfl⟩
        exact Or.inr ⟨t, ts, ht, rfl, rfl, rfl⟩
      · rintro (⟨t', ht', -, heq⟩ | ⟨t', tl, -, rfl, -, rfl⟩)
        · obtain ⟨rfl, rfl⟩ := List.cons.inj heq
          exact absurd ht' ht
        · exact ⟨rfl, rfl⟩

theorem expect_cons (h : t.type = type) (hne : type ≠ .eof) :
    expect (t :: ts) type msg = .ok (t, ts) := (expect_eq_ok hne).mpr ⟨rfl, h⟩

theorem matchToken_cons (h : t.type = type) (hne : type ≠ .eof) :
    matchToken (t :: ts) type = .ok (true, ts) :=
  (matchToken_eq_ok hne).mpr (Or.inl ⟨t, h, rfl, rfl⟩)

theorem matchToken_cons_ne (h : t.type ≠ type) (hne : type ≠ .eof) :
    matchToken (t :: ts) type = .ok (false, t :: ts) :=
  (matchToken_eq_ok hne).mpr (Or.inr ⟨t, ts, h, rfl, rfl, rfl⟩)

/-- The optional semicolon at the end of a statement. -/
theorem matchSemicolon_eq_ok : (∃ b, matchToken ts .semicolon = .ok (b, ts')) ↔
    (∃ semi, semi.type = .semicolon ∧ ts = semi :: ts') ∨
      ∃ t tl, ts' = t :: tl ∧ ts = ts' ∧ t.type ≠ .semicolon := by
  simp only [matchToken_eq_ok (show TokenType.semicolon ≠ .eof by decide)]
  constructor
  · rintro ⟨b, ⟨t, ht, -, rfl⟩ | ⟨t, tl, ht, -, rfl, rfl⟩⟩
    · exact Or.inl ⟨t, ht, rfl⟩
    · exact Or.inr ⟨t, tl, rfl, rfl, ht⟩
  · rintro (⟨semi, hs, rfl⟩ | ⟨t, tl, rfl, rfl, ht⟩)
    · exact ⟨true, Or.inl ⟨semi, hs, rfl, rfl⟩⟩
    · exact ⟨false, Or.inr ⟨t, tl, ht, rfl, rfl, rfl⟩⟩

theorem isValue_cons {b : Bool} : isValue (t :: ts) = .ok b ↔ (b = true ↔ IsValue t) := by
  simp only [isValue, check_cons, Machine.ok_bind, Machine.pure_eq_ok, Except.ok.injEq, IsValue,
    ← Bool.decide_or, or_assoc]
  rw [eq_comm, Bool.eq_iff_iff, decide_eq_true_iff]

theorem parseColumnType_eq_ok {s : Str} : parseColumnType ts = .ok (s, ts') ↔
    ∃ tok, ColumnType tok s ∧ ts = tok :: ts' := by
  cases ts with
  | nil => simp [parseColumnType, check, current]
  | cons t ts =>
    simp only [parseColumnType, check_cons, Machine.ok_bind]
    by_cases hint : t.type = .int
    · simp [hint, advance_cons, ColumnType, eq_comm, and_comm]
    · by_cases htext : t.type = .text
      · simp [htext, advance_cons, ColumnType, eq_comm, and_comm]
      · simp only [hint, htext, decide_false, Bool.false_eq_true, if_false, fail_ne_ok, false_iff]
        rintro ⟨tok, htok, heq⟩
        obtain ⟨rfl, rfl⟩ := List.cons.inj heq
        rcases htok with ⟨h, -⟩ | ⟨h, -⟩
        · exact hint h
        · exact htext h

theorem skipComma_eq_ok : skipComma ts = .ok ts' ↔ ∃ comma, OptComma comma ∧ ts = comma ++ ts' ∧
    (comma = [] → ∃ t tl, ts' = t :: tl ∧ t.type ≠ .comma) := by
  cases ts with
  | nil =>
    simp only [skipComma, check, current, Machine.error_bind, reduceCtorEq, false_iff]
    rintro ⟨comma, hc, heq, hne⟩
    obtain ⟨rfl, rfl⟩ := List.append_eq_nil_iff.mp heq.symm
    obtain ⟨t, tl, h, -⟩ := hne rfl
    exact absurd h (by simp)
  | cons t ts =>
    simp only [skipComma, check_cons, Machine.ok_bind]
    by_cases hc : t.type = .comma
    · rw [advance_cons (by rw [hc]; decide)]
      simp only [hc, decide_true, if_true, Machine.ok_bind, Machine.pure_eq_ok, Except.ok.injEq]
      constructor
      · rintro rfl
        exact ⟨[t], Or.inr ⟨t, hc, rfl⟩, rfl, fun h => absurd h (by simp)⟩
      · rintro ⟨comma, rfl | ⟨t', ht', rfl⟩, heq, hne⟩
        · obtain ⟨t', tl, rfl, ht'⟩ := hne rfl
          obtain ⟨rfl, rfl⟩ := List.cons.inj heq
          exact absurd hc ht'
        · exact (List.cons.inj heq).2
    · simp only [hc, decide_false, Bool.false_eq_true, if_false, Machine.pure_eq_ok,
        Except.ok.injEq]
      constructor
      · rintro rfl
        exact ⟨[], Or.inl rfl, rfl, fun _ => ⟨t, ts, rfl, hc⟩⟩
      · rintro ⟨comma, rfl | ⟨t', ht', rfl⟩, heq, hne⟩
        · exact heq
        · obtain ⟨rfl, -⟩ := List.cons.inj heq
          exact absurd ht' hc

end Tokens

/-! ## Lists -/

theorem parseColumns_sound : ∀ (fuel : ℕ) (ts : List Token) (cols cols' : List ColumnDef)
    (rest : List Token), parseColumns fuel ts cols = .ok (cols', rest) →
      ∃ body new, Columns body new ∧ ts = body ++ rest ∧ cols' = cols ++ new := by
  intro fuel
  induction fuel with
  | zero => intro ts cols cols' rest h; simp [parseColumns] at h
  | succ fuel ih =>
    intro ts cols cols' rest h
    cases ts with
    | nil => simp [parseColumns, check, current] at h
    | cons t ts =>
      simp only [parseColumns, check_cons, Machine.ok_bind] at h
      split_ifs at h with hstop
      · obtain ⟨rfl, rfl⟩ := Prod.mk.inj (Except.ok.inj h)
        exact ⟨[], [], .nil, rfl, by simp⟩
      · simp only [Machine.bind_eq_ok, Prod.exists,
          expect_eq_ok (show TokenType.identifier ≠ .eof by decide), parseColumnType_eq_ok,
          skipComma_eq_ok] at h
        obtain ⟨name, ts₁, ⟨heq, hname⟩, type, ts₂, ⟨tok, htok, rfl⟩, ts₃,
          ⟨comma, hcomma, rfl, -⟩, hrec⟩ := h
        obtain ⟨body, new, hbody, rfl, rfl⟩ := ih _ _ _ _ hrec
        refine ⟨name :: tok :: (comma ++ body), ⟨name.value, type⟩ :: new,
          .cons hname htok hcomma hbody, ?_, by simp⟩
        rw [heq]
        simp

/-- What follows a list element without a comma is not a comma. -/
theorem Columns.head_ne_comma {body : List Token} {new : List ColumnDef} (h : Columns body new)
    {rp : Token} (hrp : rp.type = .rparen) (rest : List Token) :
    ∃ t tl, body ++ rp :: rest = t :: tl ∧ t.type ≠ .comma := by
  cases h with
  | nil => exact ⟨rp, rest, rfl, by rw [hrp]; decide⟩
  | cons hname _ _ _ => exact ⟨_, _, rfl, by rw [hname]; decide⟩

theorem parseColumns_complete {body : List Token} {new : List ColumnDef} (h : Columns body new) :
    ∀ (fuel : ℕ) (cols : List ColumnDef) (rp : Token) (rest : List Token), rp.type = .rparen →
      new.length < fuel → parseColumns fuel (body ++ rp :: rest) cols =
        .ok (cols ++ new, rp :: rest) := by
  induction h with
  | nil =>
    intro fuel cols rp rest hrp hfuel
    obtain ⟨fuel, rfl⟩ : ∃ f, fuel = f + 1 := ⟨fuel - 1, by omega⟩
    simp [parseColumns, check_cons, hrp]
  | @cons name tok type comma ts new hname htok hcomma hts ih =>
    intro fuel cols rp rest hrp hfuel
    obtain ⟨fuel, rfl⟩ : ∃ f, fuel = f + 1 := ⟨fuel - 1, by omega⟩
    have htype : parseColumnType (tok :: (comma ++ (ts ++ rp :: rest))) =
        .ok (type, comma ++ (ts ++ rp :: rest)) := parseColumnType_eq_ok.mpr ⟨tok, htok, rfl⟩
    have hskip : skipComma (comma ++ (ts ++ rp :: rest)) = .ok (ts ++ rp :: rest) :=
      skipComma_eq_ok.mpr ⟨comma, hcomma, rfl, fun _ => hts.head_ne_comma hrp rest⟩
    have hrec := ih fuel (cols ++ [⟨name.value, type⟩]) rp rest hrp (by simp at hfuel; omega)
    simp only [List.cons_append, List.append_assoc, parseColumns, check_cons, Machine.ok_bind, hname,
      reduceCtorEq, decide_false, Bool.or_self, Bool.false_eq_true, if_false,
      expect_cons hname (by decide), htype, hskip, hrec]
    simp

theorem parseValues_sound : ∀ (fuel : ℕ) (ts : List Token) (vals vals' : List Str)
    (rest : List Token), parseValues fuel ts vals = .ok (vals', rest) →
      ∃ body new, Values body new ∧ ts = body ++ rest ∧ vals' = vals ++ new := by
  intro fuel
  induction fuel with
  | zero => intro ts vals vals' rest h; simp [parseValues] at h
  | succ fuel ih =>
    intro ts vals vals' rest h
    cases ts with
    | nil => simp [parseValues, check, current] at h
    | cons t ts =>
      simp only [parseValues, check_cons, Machine.ok_bind] at h
      split_ifs at h with hstop
      · obtain ⟨rfl, rfl⟩ := Prod.mk.inj (Except.ok.inj h)
        exact ⟨[], [], .nil, rfl, by simp⟩
      · obtain ⟨b, hb, h⟩ := Machine.bind_eq_ok.mp h
        rw [isValue_cons] at hb
        cases b with
        | false => exact absurd h fail_ne_ok
        | true =>
          have hval : IsValue t := hb.mp rfl
          have hne : t.type ≠ .eof := by
            rcases hval with ht | ht | ht <;> rw [ht] <;> decide
          simp only [if_true, current_cons, Machine.ok_bind, advance_cons hne, Machine.bind_eq_ok,
            skipComma_eq_ok] at h
          obtain ⟨ts₁, ⟨comma, hcomma, rfl, -⟩, hrec⟩ := h
          obtain ⟨body, new, hbody, rfl, rfl⟩ := ih _ _ _ _ hrec
          exact ⟨t :: (comma ++ body), t.value :: new, .cons hval hcomma hbody, by simp, by simp⟩

theorem IsValue.ne {tok : Token} (h : IsValue tok) : tok.type ≠ .eof ∧ tok.type ≠ .rparen ∧
    tok.type ≠ .comma := by
  rcases h with h | h | h <;> rw [h] <;> decide

theorem Values.head_ne_comma {body : List Token} {new : List Str} (h : Values body new)
    {rp : Token} (hrp : rp.type = .rparen) (rest : List Token) :
    ∃ t tl, body ++ rp :: rest = t :: tl ∧ t.type ≠ .comma := by
  cases h with
  | nil => exact ⟨rp, rest, rfl, by rw [hrp]; decide⟩
  | cons hval _ _ => exact ⟨_, _, rfl, hval.ne.2.2⟩

theorem parseValues_complete {body : List Token} {new : List Str} (h : Values body new) :
    ∀ (fuel : ℕ) (vals : List Str) (rp : Token) (rest : List Token), rp.type = .rparen →
      new.length < fuel → parseValues fuel (body ++ rp :: rest) vals =
        .ok (vals ++ new, rp :: rest) := by
  induction h with
  | nil =>
    intro fuel vals rp rest hrp hfuel
    obtain ⟨fuel, rfl⟩ : ∃ f, fuel = f + 1 := ⟨fuel - 1, by omega⟩
    simp [parseValues, check_cons, hrp]
  | @cons tok comma ts new hval hcomma hts ih =>
    intro fuel vals rp rest hrp hfuel
    obtain ⟨fuel, rfl⟩ : ∃ f, fuel = f + 1 := ⟨fuel - 1, by omega⟩
    obtain ⟨heof, hnrp, -⟩ := hval.ne
    have hisval : isValue (tok :: (comma ++ (ts ++ rp :: rest))) = .ok true :=
      isValue_cons.mpr (iff_of_true rfl hval)
    have hskip : skipComma (comma ++ (ts ++ rp :: rest)) = .ok (ts ++ rp :: rest) :=
      skipComma_eq_ok.mpr ⟨comma, hcomma, rfl, fun _ => hts.head_ne_comma hrp rest⟩
    have hrec := ih fuel (vals ++ [tok.value]) rp rest hrp (by simp at hfuel; omega)
    simp only [List.cons_append, List.append_assoc, parseValues, check_cons, Machine.ok_bind, heof,
      hnrp, decide_false, Bool.or_self, Bool.false_eq_true, if_false, hisval, if_true, current_cons,
      advance_cons heof, hskip, hrec]
    simp

theorem parseSelectColumns_sound : ∀ (fuel : ℕ) (ts : List Token) (cols cols' : List Str)
    (rest : List Token), parseSelectColumns fuel ts cols = .ok (cols', rest) →
      ∃ body new, Names body new ∧ ts = body ++ rest ∧ cols' = cols ++ new := by
  intro fuel
  induction fuel with
  | zero => intro ts cols cols' rest h; simp [parseSelectColumns] at h
  | succ fuel ih =>
    intro ts cols cols' rest h
    simp only [parseSelectColumns, Machine.bind_eq_ok, Prod.exists,
      expect_eq_ok (show TokenType.identifier ≠ .eof by decide),
      matchToken_eq_ok (show TokenType.comma ≠ .eof by decide)] at h
    obtain ⟨name, ts₁, ⟨rfl, hname⟩, b, ts₂, ⟨comma, hcomma, rfl, rfl⟩ | ⟨t, tl, ht, rfl, rfl, rfl⟩,
      hrec⟩ := h
    · obtain ⟨body, new, hbody, rfl, rfl⟩ := ih _ _ _ _ hrec
      exact ⟨name :: comma :: body, name.value :: new, .cons hname hcomma hbody, rfl, by simp⟩
    · obtain ⟨rfl, rfl⟩ := Prod.mk.inj (Except.ok.inj hrec)
      exact ⟨[name], [name.value], .one hname, rfl, rfl⟩

theorem parseSelectColumns_complete {body : List Token} {new : List Str} (h : Names body new) :
    ∀ (fuel : ℕ) (cols : List Str) (t : Token) (rest : List Token), t.type ≠ .comma →
      new.length ≤ fuel → parseSelectColumns fuel (body ++ t :: rest) cols =
        .ok (cols ++ new, t :: rest) := by
  induction h with
  | @one name hname =>
    intro fuel cols t rest ht hfuel
    obtain ⟨fuel, rfl⟩ : ∃ f, fuel = f + 1 := ⟨fuel - 1, by simp at hfuel; omega⟩
    simp [parseSelectColumns, expect_cons hname, matchToken_cons_ne ht]
  | @cons name comma ts new hname hcomma hts ih =>
    intro fuel cols t rest ht hfuel
    obtain ⟨fuel, rfl⟩ : ∃ f, fuel = f + 1 := ⟨fuel - 1, by simp at hfuel; omega⟩
    have hrec := ih fuel (cols ++ [name.value]) t rest ht (by simp at hfuel; omega)
    simp only [List.cons_append, parseSelectColumns, expect_cons hname (by decide), Machine.ok_bind,
      matchToken_cons hcomma (by decide), if_true, hrec]
    simp

theorem Columns.length_le {body : List Token} {new : List ColumnDef} (h : Columns body new) :
    new.length ≤ body.length := by
  induction h with
  | nil => simp
  | cons _ _ _ _ ih => simp; omega

theorem Values.length_le {body : List Token} {new : List Str} (h : Values body new) :
    new.length ≤ body.length := by
  induction h with
  | nil => simp
  | cons _ _ _ ih => simp; omega

theorem Names.length_le {body : List Token} {new : List Str} (h : Names body new) :
    new.length ≤ body.length := by
  induction h with
  | one _ => simp
  | cons _ _ _ ih => simp; omega

theorem Names.head {body : List Token} {new : List Str} (h : Names body new) :
    ∃ t tl, body = t :: tl ∧ t.type = .identifier := by
  cases h with
  | one hname => exact ⟨_, _, rfl, hname⟩
  | cons hname _ _ => exact ⟨_, _, rfl, hname⟩

/-! ## Clauses -/

theorem parseSelectList_eq_ok {ts tl : List Token} {all : Bool} {cols : List Str} {t : Token}
    (ht : t.type = .from) : parseSelectList ts = .ok (all, cols, t :: tl) ↔
      ∃ body, SelectList body all cols ∧ ts = body ++ t :: tl := by
  constructor
  · intro h
    simp only [parseSelectList, Machine.bind_eq_ok, Prod.exists,
      matchToken_eq_ok (show TokenType.star ≠ .eof by decide)] at h
    obtain ⟨b, ts₁, ⟨star, hstar, rfl, rfl⟩ | ⟨t', tl', ht', rfl, rfl, rfl⟩, h⟩ := h
    · simp only [if_true, Machine.pure_eq_ok, Except.ok.injEq, Prod.mk.injEq] at h
      obtain ⟨rfl, rfl, rfl⟩ := h
      exact ⟨[star], .star hstar, rfl⟩
    · simp only [Bool.false_eq_true, if_false, Machine.bind_eq_ok, Prod.exists,
        Machine.pure_eq_ok, Except.ok.injEq, Prod.mk.injEq] at h
      obtain ⟨cols', rest, hcols, rfl, rfl, rfl⟩ := h
      obtain ⟨body, new, hbody, heq, rfl⟩ := parseSelectColumns_sound _ _ _ _ _ hcols
      exact ⟨body, .names hbody, heq⟩
  · rintro ⟨body, hbody, rfl⟩
    cases hbody with
    | star hstar =>
      simp only [List.cons_append, List.nil_append, parseSelectList,
        matchToken_cons hstar (by decide), Machine.ok_bind, if_true]
      rfl
    | names hnames =>
      obtain ⟨t', tl', rfl, ht'⟩ := hnames.head
      have hstar : t'.type ≠ .star := by rw [ht']; decide
      have hcols := parseSelectColumns_complete hnames ((t' :: (tl' ++ t :: tl)).length + 1) [] t tl
        (by rw [ht]; decide) (by have := hnames.length_le; simp at this ⊢; omega)
      rw [List.cons_append] at hcols ⊢
      simp only [parseSelectList, matchToken_cons_ne hstar (by decide), Machine.ok_bind,
        Bool.false_eq_true, if_false, hcols]
      rfl

theorem parseWhere_eq_ok {ts rest : List Token} {wc : WhereClause} :
    parseWhere ts = .ok (wc, rest) ↔ ∃ body, Where body wc ∧ ts = body ++ rest := by
  constructor
  · intro h
    simp only [parseWhere, Machine.bind_eq_ok, Prod.exists,
      expect_eq_ok (show TokenType.where ≠ .eof by decide),
      expect_eq_ok (show TokenType.identifier ≠ .eof by decide),
      expect_eq_ok (show TokenType.equals ≠ .eof by decide)] at h
    obtain ⟨tok, ts₁, ⟨rfl, htok⟩, col, ts₂, ⟨rfl, hcol⟩, eq, ts₃, ⟨rfl, heq⟩, b, hb, h⟩ := h
    cases ts₃ with
    | nil => simp [isValue, check, current] at hb
    | cons val ts₄ =>
      rw [isValue_cons] at hb
      cases b with
      | false => exact absurd h fail_ne_ok
      | true =>
        have hval : IsValue val := hb.mp rfl
        simp only [if_true, current_cons, Machine.ok_bind, advance_cons hval.ne.1,
          Machine.pure_eq_ok, Except.ok.injEq, Prod.mk.injEq] at h
        obtain ⟨rfl, rfl⟩ := h
        exact ⟨[tok, col, eq, val], .clause htok hcol heq hval, rfl⟩
  · rintro ⟨body, @⟨tok, col, eq, val, htok, hcol, heq, hval⟩, rfl⟩
    have hisval : isValue (val :: rest) = .ok true := isValue_cons.mpr (iff_of_true rfl hval)
    simp only [List.cons_append, List.nil_append, parseWhere, expect_cons htok (by decide),
      expect_cons hcol (by decide), expect_cons heq (by decide), Machine.ok_bind, hisval, if_true,
      current_cons, advance_cons hval.ne.1]
    rfl

theorem parseOptWhere_eq_ok {stmt stmt' : Statement} {ts rest : List Token} :
    parseOptWhere stmt ts = .ok (stmt', rest) ↔ ∃ body, OptWhere stmt body stmt' ∧
      ts = body ++ rest ∧ (body = [] → ∃ t tl, rest = t :: tl ∧ t.type ≠ .where) := by
  cases ts with
  | nil =>
    simp only [parseOptWhere, check, current, Machine.error_bind, reduceCtorEq, false_iff]
    rintro ⟨body, -, heq, hne⟩
    obtain ⟨rfl, rfl⟩ := List.append_eq_nil_iff.mp heq.symm
    obtain ⟨t, tl, h, -⟩ := hne rfl
    exact absurd h (by simp)
  | cons t ts =>
    simp only [parseOptWhere, check_cons, Machine.ok_bind]
    by_cases ht : t.type = .where
    · simp only [ht, decide_true, if_true, Machine.bind_eq_ok, Prod.exists, parseWhere_eq_ok,
        Machine.pure_eq_ok, Except.ok.injEq, Prod.mk.injEq]
      constructor
      · rintro ⟨wc, rest', ⟨body, hbody, heq⟩, rfl, rfl⟩
        refine ⟨body, .some hbody, heq, ?_⟩
        rintro rfl
        cases hbody
      · rintro ⟨body, hbody, heq, hne⟩
        cases hbody with
        | none =>
          obtain ⟨t', tl, rfl, ht'⟩ := hne rfl
          obtain ⟨rfl, -⟩ := List.cons.inj heq
          exact absurd ht ht'
        | some hw => exact ⟨_, rest, ⟨body, hw, heq⟩, rfl, rfl⟩
    · simp only [ht, decide_false, Bool.false_eq_true, if_false, Machine.pure_eq_ok,
        Except.ok.injEq, Prod.mk.injEq]
      constructor
      · rintro ⟨rfl, rfl⟩
        exact ⟨[], .none, rfl, fun _ => ⟨t, ts, rfl, ht⟩⟩
      · rintro ⟨body, hbody, heq, -⟩
        cases hbody with
        | none => exact ⟨rfl, heq⟩
        | some hw =>
          obtain ⟨hwhere, -, -, -⟩ := hw
          obtain ⟨rfl, -⟩ := List.cons.inj heq
          exact absurd hwhere ht

/-! ## Statements -/

/-- The end of a statement: its optional semicolon. -/
theorem leaves_iff {stmt : Statement} {core tokens rest : List Token} :
    Leaves stmt core tokens rest ↔ ∃ ts b, tokens = core ++ ts ∧
      matchToken ts .semicolon = .ok (b, rest) ∧
      (TakesWhere stmt → ∃ t tl, ts = t :: tl ∧ t.type ≠ .where) := by
  constructor
  · rintro (⟨semi, hsemi, rfl⟩ | ⟨t, tl, rfl, rfl, ht, hw⟩)
    · exact ⟨semi :: rest, true, rfl, matchToken_cons hsemi (by decide),
        fun _ => ⟨semi, rest, rfl, by rw [hsemi]; decide⟩⟩
    · exact ⟨t :: tl, false, rfl, matchToken_cons_ne ht (by decide), fun h => ⟨t, tl, rfl, hw h⟩⟩
  · rintro ⟨ts, b, rfl, hmatch, hw⟩
    rcases matchSemicolon_eq_ok.mp ⟨b, hmatch⟩ with ⟨semi, hsemi, rfl⟩ | ⟨t, tl, rfl, rfl, ht⟩
    · exact Or.inl ⟨semi, hsemi, rfl⟩
    · refine Or.inr ⟨t, tl, rfl, rfl, ht, fun htake => ?_⟩
      obtain ⟨t', tl', heq, ht'⟩ := hw htake
      obtain ⟨rfl, -⟩ := List.cons.inj heq
      exact ht'

theorem parseCreateTable_eq_ok {ts rest : List Token} {stmt : Statement} :
    parseCreateTable ts = .ok (stmt, rest) ↔
      ∃ core, Core core stmt ∧ stmt.type = .createTable ∧ Leaves stmt core ts rest := by
  constructor
  · intro h
    simp only [parseCreateTable, Machine.bind_eq_ok, Prod.exists, expect_eq_ok, ne_eq, reduceCtorEq,
      not_false_eq_true, Machine.pure_eq_ok, Except.ok.injEq, Prod.mk.injEq] at h
    obtain ⟨create, ts₁, ⟨rfl, h₁⟩, table, ts₂, ⟨rfl, h₂⟩, name, ts₃, ⟨rfl, h₃⟩, lparen, ts₄,
      ⟨rfl, h₄⟩, cols, ts₅, hcols, rparen, ts₆, ⟨rfl, h₅⟩, b, ts₇, hsemi, rfl, rfl⟩ := h
    obtain ⟨body, new, hbody, rfl, rfl⟩ := parseColumns_sound _ _ _ _ _ hcols
    exact ⟨_, .create h₁ h₂ h₃ h₄ hbody h₅, rfl, leaves_iff.mpr ⟨ts₆, b, by simp, hsemi,
      fun ht => absurd ht.1 (by simp)⟩⟩
  · rintro ⟨core, hcore, htype, hleaves⟩
    obtain ⟨ts', b, rfl, hsemi, -⟩ := leaves_iff.mp hleaves
    cases hcore with
    | @create create table name lparen rparen body cols h₁ h₂ h₃ h₄ hbody h₅ =>
      have hcols := parseColumns_complete hbody ((body ++ rparen :: ts').length + 1) [] rparen ts' h₅
        (by have := hbody.length_le; simp; omega)
      simp only [List.cons_append, List.append_assoc, List.nil_append, parseCreateTable,
        expect_cons h₁ (by decide), expect_cons h₂ (by decide), expect_cons h₃ (by decide),
        expect_cons h₄ (by decide), Machine.ok_bind, hcols, expect_cons h₅ (by decide), hsemi]
      rfl
    | insert => exact absurd htype (by simp)
    | select _ _ _ _ hw => cases hw <;> exact absurd htype (by simp)
    | delete _ _ _ hw => cases hw <;> exact absurd htype (by simp)

theorem parseInsert_eq_ok {ts rest : List Token} {stmt : Statement} :
    parseInsert ts = .ok (stmt, rest) ↔
      ∃ core, Core core stmt ∧ stmt.type = .insert ∧ Leaves stmt core ts rest := by
  constructor
  · intro h
    simp only [parseInsert, Machine.bind_eq_ok, Prod.exists, expect_eq_ok, ne_eq, reduceCtorEq,
      not_false_eq_true, Machine.pure_eq_ok, Except.ok.injEq, Prod.mk.injEq] at h
    obtain ⟨insert, ts₁, ⟨rfl, h₁⟩, into, ts₂, ⟨rfl, h₂⟩, name, ts₃, ⟨rfl, h₃⟩, values, ts₄,
      ⟨rfl, h₄⟩, lparen, ts₅, ⟨rfl, h₅⟩, vals, ts₆, hvals, rparen, ts₇, ⟨rfl, h₆⟩, b, ts₈, hsemi,
      rfl, rfl⟩ := h
    obtain ⟨body, new, hbody, rfl, rfl⟩ := parseValues_sound _ _ _ _ _ hvals
    exact ⟨_, .insert h₁ h₂ h₃ h₄ h₅ hbody h₆, rfl, leaves_iff.mpr ⟨ts₇, b, by simp, hsemi,
      fun ht => absurd ht.1 (by simp)⟩⟩
  · rintro ⟨core, hcore, htype, hleaves⟩
    obtain ⟨ts', b, rfl, hsemi, -⟩ := leaves_iff.mp hleaves
    cases hcore with
    | create => exact absurd htype (by simp)
    | @insert insert into name values lparen rparen body vals h₁ h₂ h₃ h₄ h₅ hbody h₆ =>
      have hvals := parseValues_complete hbody ((body ++ rparen :: ts').length + 1) [] rparen ts' h₆
        (by have := hbody.length_le; simp; omega)
      simp only [List.cons_append, List.append_assoc, List.nil_append, parseInsert,
        expect_cons h₁ (by decide), expect_cons h₂ (by decide), expect_cons h₃ (by decide),
        expect_cons h₄ (by decide), expect_cons h₅ (by decide), Machine.ok_bind, hvals,
        expect_cons h₆ (by decide), hsemi]
      rfl
    | select _ _ _ _ hw => cases hw <;> exact absurd htype (by simp)
    | delete _ _ _ hw => cases hw <;> exact absurd htype (by simp)

/-- What a `WHERE` clause or its absence says about the statement. -/
theorem OptWhere.takesWhere {stmt stmt' : Statement} {body : List Token}
    (h : OptWhere stmt body stmt') (hw : stmt.hasWhere = false)
    (ht : stmt.type = .select ∨ stmt.type = .delete) : TakesWhere stmt' ↔ body = [] := by
  cases h with
  | none => simp [TakesWhere, hw, ht]
  | some hwh => cases hwh; simp [TakesWhere]

theorem OptWhere.type_eq {stmt stmt' : Statement} {body : List Token}
    (h : OptWhere stmt body stmt') : stmt'.type = stmt.type := by
  cases h <;> rfl

theorem parseSelect_eq_ok {ts rest : List Token} {stmt : Statement} :
    parseSelect ts = .ok (stmt, rest) ↔
      ∃ core, Core core stmt ∧ stmt.type = .select ∧ Leaves stmt core ts rest := by
  constructor
  · intro h
    simp only [parseSelect, Machine.bind_eq_ok, Prod.exists, expect_eq_ok, ne_eq, reduceCtorEq,
      not_false_eq_true, Machine.pure_eq_ok, Except.ok.injEq, Prod.mk.injEq] at h
    obtain ⟨select, ts₁, ⟨rfl, h₁⟩, all, cols, ts₂, hlist, from', ts₃, ⟨rfl, h₂⟩, name, ts₄,
      ⟨rfl, h₃⟩, stmt', ts₅, hwhere, b, ts₆, hsemi, rfl, rfl⟩ := h
    obtain ⟨body, hbody, rfl⟩ := (parseSelectList_eq_ok h₂).mp hlist
    obtain ⟨wh, hwh, rfl, hne⟩ := parseOptWhere_eq_ok.mp hwhere
    refine ⟨_, .select h₁ hbody h₂ h₃ hwh, hwh.type_eq, leaves_iff.mpr ⟨ts₅, b, by simp, hsemi,
      fun ht => hne ?_⟩⟩
    exact (hwh.takesWhere rfl (Or.inl rfl)).mp ht
  · rintro ⟨core, hcore, htype, hleaves⟩
    obtain ⟨ts', b, rfl, hsemi, hne⟩ := leaves_iff.mp hleaves
    cases hcore with
    | create => exact absurd htype (by simp)
    | insert => exact absurd htype (by simp)
    | @select select from' name body wh all cols stmt h₁ hbody h₂ h₃ hwh =>
      have hlist : parseSelectList (body ++ from' :: name :: (wh ++ ts')) =
          .ok (all, cols, from' :: name :: (wh ++ ts')) :=
        (parseSelectList_eq_ok h₂).mpr ⟨body, hbody, rfl⟩
      have hwhere := parseOptWhere_eq_ok.mpr ⟨wh, hwh, rfl, fun hnil =>
        hne ((hwh.takesWhere rfl (Or.inl rfl)).mpr hnil)⟩
      simp only [List.cons_append, List.append_assoc, parseSelect, expect_cons h₁ (by decide),
        Machine.ok_bind, hlist, expect_cons h₂ (by decide), expect_cons h₃ (by decide), hwhere,
        hsemi]
      rfl
    | delete _ _ _ hw => rw [hw.type_eq] at htype; exact absurd htype (by simp)

theorem parseDelete_eq_ok {ts rest : List Token} {stmt : Statement} :
    parseDelete ts = .ok (stmt, rest) ↔
      ∃ core, Core core stmt ∧ stmt.type = .delete ∧ Leaves stmt core ts rest := by
  constructor
  · intro h
    simp only [parseDelete, Machine.bind_eq_ok, Prod.exists, expect_eq_ok, ne_eq, reduceCtorEq,
      not_false_eq_true, Machine.pure_eq_ok, Except.ok.injEq, Prod.mk.injEq] at h
    obtain ⟨delete, ts₁, ⟨rfl, h₁⟩, from', ts₂, ⟨rfl, h₂⟩, name, ts₃, ⟨rfl, h₃⟩, stmt', ts₄, hwhere,
      b, ts₅, hsemi, rfl, rfl⟩ := h
    obtain ⟨wh, hwh, rfl, hne⟩ := parseOptWhere_eq_ok.mp hwhere
    refine ⟨_, .delete h₁ h₂ h₃ hwh, hwh.type_eq, leaves_iff.mpr ⟨ts₄, b, by simp, hsemi,
      fun ht => hne ?_⟩⟩
    exact (hwh.takesWhere rfl (Or.inr rfl)).mp ht
  · rintro ⟨core, hcore, htype, hleaves⟩
    obtain ⟨ts', b, rfl, hsemi, hne⟩ := leaves_iff.mp hleaves
    cases hcore with
    | create => exact absurd htype (by simp)
    | insert => exact absurd htype (by simp)
    | select _ _ _ _ hw => rw [hw.type_eq] at htype; exact absurd htype (by simp)
    | @delete delete from' name wh stmt h₁ h₂ h₃ hwh =>
      have hwhere := parseOptWhere_eq_ok.mpr ⟨wh, hwh, rfl, fun hnil =>
        hne ((hwh.takesWhere rfl (Or.inr rfl)).mpr hnil)⟩
      simp only [List.cons_append, parseDelete, expect_cons h₁ (by decide), Machine.ok_bind,
        expect_cons h₂ (by decide), expect_cons h₃ (by decide), hwhere, hsemi]
      rfl

/-- The first token of a statement tells its type. -/
theorem Core.head {core : List Token} {stmt : Statement} (h : Core core stmt) : ∃ t tl,
    core = t :: tl ∧ t.type = match stmt.type with
      | .createTable => TokenType.create
      | .insert => .insert
      | .select => .select
      | .delete => .delete := by
  cases h with
  | create h₁ => exact ⟨_, _, rfl, h₁⟩
  | insert h₁ => exact ⟨_, _, rfl, h₁⟩
  | select h₁ _ _ _ hw => exact ⟨_, _, rfl, by rw [hw.type_eq]; exact h₁⟩
  | delete h₁ _ _ hw => exact ⟨_, _, rfl, by rw [hw.type_eq]; exact h₁⟩

/-- The parser is the grammar: it returns `stmt` and stops at `rest` exactly when the tokens before
`rest` derive `stmt` and cannot be prolonged. -/
theorem parse_eq_ok {ts rest : List Token} {stmt : Statement} :
    parse ts = .ok (stmt, rest) ↔ ∃ core, Core core stmt ∧ Leaves stmt core ts rest := by
  constructor
  · intro h
    cases ts with
    | nil => simp [parse, check, current] at h
    | cons t ts =>
      simp only [parse, check_cons, Machine.ok_bind] at h
      split_ifs at h
      · obtain ⟨core, hcore, -, hl⟩ := parseCreateTable_eq_ok.mp h
        exact ⟨core, hcore, hl⟩
      · obtain ⟨core, hcore, -, hl⟩ := parseInsert_eq_ok.mp h
        exact ⟨core, hcore, hl⟩
      · obtain ⟨core, hcore, -, hl⟩ := parseSelect_eq_ok.mp h
        exact ⟨core, hcore, hl⟩
      · obtain ⟨core, hcore, -, hl⟩ := parseDelete_eq_ok.mp h
        exact ⟨core, hcore, hl⟩
      · exact absurd h fail_ne_ok
  · rintro ⟨core, hcore, hleaves⟩
    obtain ⟨t, tl, rfl, ht⟩ := hcore.head
    obtain ⟨ts', -, rfl, -, -⟩ := leaves_iff.mp hleaves
    rw [List.cons_append] at hleaves ⊢
    cases htype : stmt.type with
    | createTable =>
      rw [htype] at ht
      simp only [parse, check_cons, Machine.ok_bind, ht, decide_true, if_true]
      exact parseCreateTable_eq_ok.mpr ⟨_, hcore, htype, hleaves⟩
    | insert =>
      rw [htype] at ht
      simp only [parse, check_cons, Machine.ok_bind, ht, reduceCtorEq, decide_false,
        Bool.false_eq_true, if_false, decide_true, if_true]
      exact parseInsert_eq_ok.mpr ⟨_, hcore, htype, hleaves⟩
    | select =>
      rw [htype] at ht
      simp only [parse, check_cons, Machine.ok_bind, ht, reduceCtorEq, decide_false,
        Bool.false_eq_true, if_false, decide_true, if_true]
      exact parseSelect_eq_ok.mpr ⟨_, hcore, htype, hleaves⟩
    | delete =>
      rw [htype] at ht
      simp only [parse, check_cons, Machine.ok_bind, ht, reduceCtorEq, decide_false,
        Bool.false_eq_true, if_false, decide_true, if_true]
      exact parseDelete_eq_ok.mpr ⟨_, hcore, htype, hleaves⟩

/-! ## Trailing tokens -/

/-- Of a stream that ends in `EOF` a statement leaves at least that token. -/
theorem Leaves.ne_nil {stmt : Statement} {core ts rest : List Token} {eof : Token}
    (h : Leaves stmt core (ts ++ [eof]) rest) (heof : eof.type = .eof) : rest ≠ [] := by
  rintro rfl
  rcases h with ⟨semi, hsemi, heq⟩ | ⟨t, tl, hnil, -⟩
  · have hlast := (List.append_inj_right' heq rfl)
    obtain ⟨rfl, -⟩ := List.cons.inj hlast
    rw [heof] at hsemi
    exact absurd hsemi (by decide)
  · exact absurd hnil (by simp)

/-- Every statement accepted from a stream that ends in `EOF` has consumed all tokens before it,
exactly when no complete statement at the front of the stream is followed by another token. -/
theorem parse_consumes_iff (ts : List Token) (eof : Token) (heof : eof.type = .eof) :
    (∀ stmt rest, parse (ts ++ [eof]) = .ok (stmt, rest) →
      ∃ t tl, rest = t :: tl ∧ t.type = .eof) ↔ ¬ TrailingToken (ts ++ [eof]) := by
  constructor
  · rintro h ⟨core, stmt, t, rest, hcore, hleaves, ht⟩
    obtain ⟨t', tl, heq, ht'⟩ := h stmt (t :: rest) (parse_eq_ok.mpr ⟨core, hcore, hleaves⟩)
    obtain ⟨rfl, -⟩ := List.cons.inj heq
    exact ht ht'
  · intro h stmt rest hparse
    obtain ⟨core, hcore, hleaves⟩ := parse_eq_ok.mp hparse
    obtain ⟨t, tl, rfl⟩ := List.exists_cons_of_ne_nil (hleaves.ne_nil heof)
    by_cases ht : t.type = .eof
    · exact ⟨t, tl, rfl, ht⟩
    · exact absurd ⟨core, stmt, t, tl, hcore, hleaves, ht⟩ h

/-- `DELETE FROM t` and the end of the stream: nothing is left. -/
theorem parse_consumes_iff_delete : ¬ TrailingToken
    ([⟨.delete, lit "DELETE"⟩, ⟨.from, lit "FROM"⟩, ⟨.identifier, lit "t"⟩] ++ [⟨.eof, []⟩]) :=
  (parse_consumes_iff _ ⟨.eof, []⟩ rfl).mp fun stmt rest h =>
    ⟨⟨.eof, []⟩, [], by
      have hparse : parse ([⟨.delete, lit "DELETE"⟩, ⟨.from, lit "FROM"⟩, ⟨.identifier, lit "t"⟩] ++
        [⟨.eof, []⟩]) = .ok ({ type := .delete, tableName := lit "t" }, [⟨.eof, []⟩]) := by decide
      rw [hparse] at h
      exact (Prod.mk.inj (Except.ok.inj h)).2.symm, rfl⟩

/-- `DELETE FROM t foo`: the parser returns an unconditional `DELETE`, and the token it stops at is
`foo`, not `EOF`. -/
theorem parse_leaves_trailing_token : ∃ foo : Token,
    parse [⟨.delete, lit "DELETE"⟩, ⟨.from, lit "FROM"⟩, ⟨.identifier, lit "t"⟩, foo, ⟨.eof, []⟩] =
      .ok ({ type := .delete, tableName := lit "t" }, [foo, ⟨.eof, []⟩]) ∧ foo.type ≠ .eof :=
  ⟨⟨.identifier, lit "foo"⟩, by decide, by decide⟩

end MiniDB.Parser
