import MiniDB.Parser.Grammar
import MiniDB.Parser.Lexer

/-!
# The delimiters of a statement

The delimiters an accepted input should have: a closing quote for every literal the statement uses,
and single commas between the elements of a column or value list. The loops of the parser take a
comma wherever there may be one, and the lexer a closing quote where there is one, so that a comma
can be missing or stand before the closing parenthesis, and the value of a `WHERE` clause at the end
of the input can be left open. Nothing else goes wrong.

## Main definitions

* `Separated`: elements with single commas between them
* `Delimited input stmt rest`: the part of the input before `rest` has the delimiters of `stmt`
* `Apart`: two tokens may stand next to each other
* `Loose input`: the input is a statement with a comma or a closing quote wrong

## Main results

* `parse_delimited_iff`: when every accepted statement has its delimiters
-/

namespace MiniDB.Parser

open Lexer

/-! ## What is asked of an accepted input -/

/-- Elements with exactly one comma between each two of them and none after the last. -/
inductive Separated (Element : List Token → Prop) : List Token → Prop
  | nil : Separated Element []
  | one {element : List Token} : Element element → Separated Element element
  | cons {element ts : List Token} {comma : Token} : Element element → comma.type = .comma →
    ts ≠ [] → Separated Element ts → Separated Element (element ++ comma :: ts)

/-- A column definition: a name and a type. -/
def IsColumn (ts : List Token) : Prop :=
  ∃ name tok : Token, name.type = .identifier ∧ (tok.type = .int ∨ tok.type = .text) ∧
    ts = [name, tok]

/-- A value. -/
def IsSingleValue (ts : List Token) : Prop := ∃ tok, IsValue tok ∧ ts = [tok]

/-- The tokens between the first opening parenthesis and the closing one after it. -/
def parenthesized (ts : List Token) : List Token :=
  ((ts.dropWhile fun t => t.type ≠ .lparen).drop 1).takeWhile fun t => t.type ≠ .rparen

/-- The lexemes of the input that were used when the parser has stopped at `rest`. -/
def used (input : Str) (rest : List Token) : List Lexeme :=
  (lexemes input).take ((handleInput input).length - rest.length)

/-- The part of the input the statement was read from has its delimiters. -/
structure Delimited (input : Str) (stmt : Statement) (rest : List Token) : Prop where
  closed : ∀ l ∈ used input rest, l.token.type = .string → l.Closed
  columns : stmt.type = .createTable →
    Separated IsColumn (parenthesized ((used input rest).map Lexeme.token))
  values : stmt.type = .insert →
    Separated IsSingleValue (parenthesized ((used input rest).map Lexeme.token))

/-! ## Where it goes wrong -/

/-- Two tokens that may stand next to each other: no element directly follows another one, and no
comma stands before the closing parenthesis. -/
def Apart : StatementType → Token → Token → Prop
  | .createTable, a, b => ¬ ((a.type = .int ∨ a.type = .text) ∧ b.type = .identifier) ∧
    ¬ (a.type = .comma ∧ b.type = .rparen)
  | .insert, a, b => ¬ (IsValue a ∧ IsValue b) ∧ ¬ (a.type = .comma ∧ b.type = .rparen)
  | .select, _, _ => True
  | .delete, _, _ => True

/-- The input begins with a statement, commas being optional, in which two neighbours should not
stand next to each other; or it is a statement with an odd number of quotes. -/
def Loose (input : Str) : Prop :=
  ∃ ls core stmt rest, Written input ls ∧ Core core stmt ∧
    Leaves stmt core (ls.map Lexeme.token ++ [⟨.eof, []⟩]) rest ∧
    (¬ core.IsChain (Apart stmt.type) ∨ (input.count quote % 2 = 1 ∧ rest = [⟨.eof, []⟩]))

/-! ## Lists -/

/-- Elements, each followed by at most one comma. -/
inductive Elements (Element : List Token → Prop) : List Token → Prop
  | nil : Elements Element []
  | cons {element comma ts : List Token} : Element element → OptComma comma → Elements Element ts →
    Elements Element (element ++ (comma ++ ts))

theorem Columns.elements {ts : List Token} {cols : List ColumnDef} (h : Columns ts cols) :
    Elements IsColumn ts := by
  induction h with
  | nil => exact .nil
  | @cons name tok type comma ts cols hname htype hcomma _ ih =>
    have htok : tok.type = .int ∨ tok.type = .text := htype.imp And.left And.left
    exact .cons ⟨name, tok, hname, htok, rfl⟩ hcomma ih

theorem Values.elements {ts : List Token} {vals : List Str} (h : Values ts vals) :
    Elements IsSingleValue ts := by
  induction h with
  | nil => exact .nil
  | @cons tok comma ts vals htok hcomma _ ih => exact .cons ⟨tok, htok, rfl⟩ hcomma ih

/-- How `R` sees the elements of a list: by their first tokens `Starts`, which neither a comma nor a
closing parenthesis is, it allows behind an element everything but another element, and behind a
comma everything but a closing parenthesis. -/
structure Guards (Element : List Token → Prop) (Starts : Token → Prop)
    (R : Token → Token → Prop) : Prop where
  starts : ∀ {e}, Element e → ∃ t tl, e = t :: tl ∧ Starts t
  ne : ∀ {t}, Starts t → t.type ≠ .comma ∧ t.type ≠ .rparen
  no_rparen : ∀ {e}, Element e → ∀ t ∈ e, t.type ≠ .rparen
  unique : ∀ {e e' ts ts'}, Element e → Element e' → e ++ ts = e' ++ ts' → ts = ts'
  after_element : ∀ {e t tl}, Element e →
    ((e ++ t :: tl).IsChain R ↔ ¬ Starts t ∧ (t :: tl).IsChain R)
  after_comma : ∀ {c t tl}, c.type = .comma →
    ((c :: t :: tl).IsChain R ↔ t.type ≠ .rparen ∧ (t :: tl).IsChain R)

section Guards

variable {Element : List Token → Prop} {Starts : Token → Prop} {R : Token → Token → Prop}

theorem Elements.head (hg : Guards Element Starts R) {ts : List Token} (h : Elements Element ts) :
    ts = [] ∨ ∃ t tl, ts = t :: tl ∧ Starts t := by
  cases h with
  | nil => exact Or.inl rfl
  | cons he =>
    obtain ⟨t, tl, rfl, ht⟩ := hg.starts he
    exact Or.inr ⟨t, _, rfl, ht⟩

theorem Elements.no_rparen (hg : Guards Element Starts R) {ts : List Token}
    (h : Elements Element ts) : ∀ t ∈ ts, t.type ≠ .rparen := by
  induction h with
  | nil => simp
  | @cons e comma ts he hcomma _ ih =>
    intro t ht
    rcases List.mem_append.mp ht with ht | ht
    · exact hg.no_rparen he t ht
    rcases List.mem_append.mp ht with ht | ht
    · rcases hcomma with rfl | ⟨c, hc, rfl⟩
      · exact absurd ht (by simp)
      · rw [List.mem_singleton.mp ht, hc]
        decide
    · exact ih t ht

/-- A separated list that begins with an element is that element, or goes on behind a comma. -/
theorem Separated.tail (hg : Guards Element Starts R) {e ts all : List Token}
    (h : Separated Element all) (he : Element e) (hall : all = e ++ ts) :
    ts = [] ∨ ∃ c tl, ts = c :: tl ∧ c.type = .comma ∧ tl ≠ [] ∧ Separated Element tl := by
  cases h with
  | nil =>
    obtain ⟨t, tl, rfl, -⟩ := hg.starts he
    exact absurd hall (by simp)
  | one he' =>
    rw [← List.append_nil all] at hall
    exact Or.inl (hg.unique he' he hall).symm
  | @cons e' tl c he' hc hne hsep =>
    exact Or.inr ⟨c, tl, (hg.unique he' he hall).symm, hc, hne, hsep⟩

/-- A list with optional commas is separated exactly when no neighbours in it, up to the closing
parenthesis, are forbidden. -/
theorem Elements.separated_iff (hg : Guards Element Starts R) {ts : List Token} {rparen : Token}
    (h : Elements Element ts) (hr : rparen.type = .rparen) :
    Separated Element ts ↔ (ts ++ [rparen]).IsChain R := by
  have hstop : ¬ Starts rparen := fun hs => (hg.ne hs).2 hr
  induction h with
  | nil => exact iff_of_true .nil (by simp)
  | @cons e comma ts he hcomma hts ih =>
    rcases hcomma with rfl | ⟨c, hc, rfl⟩ <;> rcases hts.head hg with rfl | ⟨t, tl, rfl, ht⟩
    · have hone : Separated Element (e ++ ([] ++ [])) := by simpa using Separated.one he
      refine iff_of_true hone ?_
      rw [List.append_nil, List.append_nil]
      exact (hg.after_element he).mpr ⟨hstop, by simp⟩
    · refine iff_of_false (fun hsep => ?_) fun hchain => ?_
      · rcases hsep.tail hg he rfl with hnil | ⟨c, tl', heq, hc, -, -⟩
        · exact absurd hnil (by simp)
        · obtain ⟨rfl, -⟩ := List.cons.inj heq
          exact (hg.ne ht).1 hc
      · rw [List.append_assoc] at hchain
        exact ((hg.after_element he).mp hchain).1 ht
    · refine iff_of_false (fun hsep => ?_) fun hchain => ?_
      · rcases hsep.tail hg he rfl with hnil | ⟨c', tl, heq, -, hne, -⟩
        · exact absurd hnil (by simp)
        · obtain ⟨-, rfl⟩ := List.cons.inj heq
          exact hne rfl
      · rw [List.append_assoc] at hchain
        have hafter := ((hg.after_element he).mp hchain).2
        exact ((hg.after_comma hc).mp hafter).1 hr
    · have hchain : ((e ++ ([c] ++ t :: tl)) ++ [rparen]).IsChain R ↔
          ((t :: tl) ++ [rparen]).IsChain R := by
        rw [List.append_assoc]
        refine (hg.after_element he).trans ?_
        rw [and_iff_right fun hs => (hg.ne hs).1 hc]
        exact (hg.after_comma hc).trans (and_iff_right (hg.ne ht).2)
      rw [hchain]
      refine Iff.trans ?_ ih
      constructor
      · intro hsep
        rcases hsep.tail hg he rfl with hnil | ⟨c', tl', heq, -, -, hsep⟩
        · exact absurd hnil (by simp)
        · obtain ⟨-, rfl⟩ := List.cons.inj heq
          exact hsep
      · exact fun hsep => .cons he hc (by simp) hsep

end Guards

theorem guards_columns : Guards IsColumn (fun t => t.type = .identifier) (Apart .createTable) where
  starts := by
    rintro _ ⟨name, tok, hname, -, rfl⟩
    exact ⟨name, [tok], rfl, hname⟩
  ne := by
    intro t ht
    rw [ht]
    decide
  no_rparen := by
    rintro _ ⟨name, tok, hname, htok, rfl⟩ t ht
    rcases List.mem_pair.mp ht with rfl | rfl
    · rw [hname]
      decide
    · rcases htok with h | h <;> rw [h] <;> decide
  unique := by
    rintro _ _ ts ts' ⟨name, tok, -, -, rfl⟩ ⟨name', tok', -, -, rfl⟩ heq
    simpa using (List.cons.inj (List.cons.inj heq).2).2
  after_element := by
    rintro _ t tl ⟨name, tok, hname, htok, rfl⟩
    have hcomma : tok.type ≠ .comma := by rcases htok with h | h <;> rw [h] <;> decide
    simp [Apart, hname, htok, hcomma]
  after_comma := by
    intro c t tl hc
    simp [Apart, hc]

theorem guards_values : Guards IsSingleValue IsValue (Apart .insert) where
  starts := by
    rintro _ ⟨tok, htok, rfl⟩
    exact ⟨tok, [], rfl, htok⟩
  ne := by
    rintro t (ht | ht | ht) <;> rw [ht] <;> decide
  no_rparen := by
    rintro _ ⟨tok, htok, rfl⟩ t ht
    rw [List.mem_singleton.mp ht]
    rcases htok with h | h | h <;> rw [h] <;> decide
  unique := by
    rintro _ _ ts ts' ⟨tok, -, rfl⟩ ⟨tok', -, rfl⟩ heq
    exact (List.cons.inj heq).2
  after_element := by
    rintro _ t tl ⟨tok, htok, rfl⟩
    have hcomma : tok.type ≠ .comma := by rcases htok with h | h | h <;> rw [h] <;> decide
    simp [Apart, htok, hcomma]
  after_comma := by
    intro c t tl hc
    have hval : ¬ IsValue c := by simp [IsValue, hc]
    simp [Apart, hc, hval]

/-! ## Statements -/

theorem parenthesized_eq {front ts : List Token} {lparen rparen : Token} (rest : List Token)
    (hfront : ∀ t ∈ front, t.type ≠ .lparen) (hl : lparen.type = .lparen)
    (hts : ∀ t ∈ ts, t.type ≠ .rparen) (hr : rparen.type = .rparen) :
    parenthesized (front ++ lparen :: (ts ++ rparen :: rest)) = ts := by
  unfold parenthesized
  rw [List.dropWhile_append_of_pos (by simpa using hfront), List.dropWhile_cons_of_neg (by simpa),
    List.drop_one, List.tail_cons, List.takeWhile_append_of_pos (by simpa using hts),
    List.takeWhile_cons_of_neg (by simpa), List.append_nil]

theorem exists_cons_of_snoc (ts : List Token) (t : Token) : ∃ t' tl, ts ++ [t] = t' :: tl :=
  List.exists_cons_of_ne_nil (by simp)

/-- The lists of a statement are separated exactly when no two of its tokens that should be apart
are neighbours. -/
theorem Core.separated_iff {core : List Token} {stmt : Statement} (h : Core core stmt)
    (semi : List Token) :
    ((stmt.type = .createTable → Separated IsColumn (parenthesized (core ++ semi))) ∧
      (stmt.type = .insert → Separated IsSingleValue (parenthesized (core ++ semi)))) ↔
    core.IsChain (Apart stmt.type) := by
  cases h with
  | @create create table name lparen rparen ts cols h₁ h₂ h₃ h₄ hcols h₅ =>
    have hlist : parenthesized ((create :: table :: name :: lparen :: (ts ++ [rparen])) ++ semi) =
        ts := by
      have hfront : ∀ t ∈ [create, table, name], t.type ≠ .lparen := by simp [h₁, h₂, h₃]
      have hts := hcols.elements.no_rparen guards_columns
      simpa using parenthesized_eq semi hfront h₄ hts h₅
    have hchain : (create :: table :: name :: lparen :: (ts ++ [rparen])).IsChain
        (Apart .createTable) ↔ (ts ++ [rparen]).IsChain (Apart .createTable) := by
      obtain ⟨t, tl, heq⟩ := exists_cons_of_snoc ts rparen
      rw [heq]
      simp [Apart, h₁, h₂, h₃, h₄]
    simp only [hlist, true_implies, reduceCtorEq, false_implies, and_true]
    rw [hchain]
    exact hcols.elements.separated_iff guards_columns h₅
  | @insert insert into name values lparen rparen ts vals h₁ h₂ h₃ h₄ h₅ hvals h₆ =>
    have hlist : parenthesized ((insert :: into :: name :: values :: lparen :: (ts ++ [rparen])) ++
        semi) = ts := by
      have hfront : ∀ t ∈ [insert, into, name, values], t.type ≠ .lparen := by
        simp [h₁, h₂, h₃, h₄]
      have hts := hvals.elements.no_rparen guards_values
      simpa using parenthesized_eq semi hfront h₅ hts h₆
    have hchain : (insert :: into :: name :: values :: lparen :: (ts ++ [rparen])).IsChain
        (Apart .insert) ↔ (ts ++ [rparen]).IsChain (Apart .insert) := by
      obtain ⟨t, tl, heq⟩ := exists_cons_of_snoc ts rparen
      rw [heq]
      simp [Apart, IsValue, h₁, h₂, h₃, h₄, h₅]
    simp only [hlist, true_implies, reduceCtorEq, false_implies, true_and]
    rw [hchain]
    exact hvals.elements.separated_iff guards_values h₆
  | select _ _ _ _ hw =>
    rw [hw.type_eq]
    exact iff_of_true (by simp) (List.pairwise_of_forall fun _ _ => trivial).isChain
  | delete _ _ _ hw =>
    rw [hw.type_eq]
    exact iff_of_true (by simp) (List.pairwise_of_forall fun _ _ => trivial).isChain

/-- A statement takes its tokens, perhaps a semicolon, and leaves the rest. -/
theorem Leaves.split {stmt : Statement} {core ts rest : List Token}
    (h : Leaves stmt core ts rest) : ∃ semi, ts = (core ++ semi) ++ rest := by
  rcases h with ⟨semi, -, rfl⟩ | ⟨t, tl, -, rfl, -⟩
  · exact ⟨[semi], by simp⟩
  · exact ⟨[], by simp⟩

/-- The used lexemes are those of the tokens before the rest. -/
theorem map_token_used {input : Str} {front rest : List Token}
    (h : handleInput input = front ++ rest) (hne : rest ≠ []) :
    (used input rest).map Lexeme.token = front := by
  have hpos := List.length_pos_iff.mpr hne
  have hlength : front.length ≤ ((lexemes input).map Lexeme.token).length := by
    have hboth := congrArg List.length ((handleInput_eq input).symm.trans h)
    simp only [List.length_append, List.length_singleton] at hboth
    omega
  have heof : (handleInput input).take front.length =
      ((lexemes input).map Lexeme.token).take front.length := by
    rw [handleInput_eq, List.take_append_of_le_length hlength]
  rw [used, h, List.length_append, Nat.add_sub_cancel, List.map_take, ← heof, h, List.take_left]

/-- The literals in use are closed, unless an odd number of quotes leaves the last one open and the
statement reaches the end of the input. -/
theorem used_closed_iff {input : Str} {front rest : List Token}
    (h : handleInput input = front ++ rest) (hne : rest ≠ []) :
    (∀ l ∈ used input rest, l.token.type = .string → l.Closed) ↔
      ¬ (input.count quote % 2 = 1 ∧ rest = [⟨.eof, []⟩]) := by
  obtain ⟨init, last, hsplit, hclosed, hlast⟩ := (written_iff.mpr (rfl : lexemes input = _)).literals
  have hlength := congrArg List.length (handleInput_eq input)
  simp only [List.length_append, List.length_map, List.length_singleton] at hlength
  constructor
  · rintro hall ⟨hodd, rfl⟩
    obtain ⟨heven, -⟩ | ⟨-, l, rfl, htype, hopen⟩ := hlast
    · rw [hodd] at heven
      exact absurd heven (by decide)
    · refine hopen (hall l ?_ htype)
      rw [used, hlength, List.length_singleton, Nat.add_sub_cancel, List.take_length, hsplit]
      simp
  · intro hnot l hl htype
    obtain ⟨-, rfl⟩ | ⟨hodd, x, rfl, -, -⟩ := hlast
    · rw [List.append_nil] at hsplit
      exact hclosed l (hsplit ▸ List.mem_of_mem_take hl) htype
    · by_cases hn : (handleInput input).length - rest.length ≤ init.length
      · rw [used, hsplit, List.take_append_of_le_length hn] at hl
        exact hclosed l (List.mem_of_mem_take hl) htype
      · refine absurd ⟨hodd, ?_⟩ hnot
        have hone : rest.length = 1 := by
          have hpos := List.length_pos_iff.mpr hne
          rw [hlength, hsplit] at hn
          simp only [List.length_append, List.length_singleton] at hn
          omega
        rw [handleInput_eq] at h
        exact ((List.append_inj' h (by simp [hone])).2).symm

theorem delimited_iff {input : Str} {core rest : List Token} {stmt : Statement}
    (hcore : Core core stmt) (hleaves : Leaves stmt core (handleInput input) rest) :
    Delimited input stmt rest ↔ core.IsChain (Apart stmt.type) ∧
      ¬ (input.count quote % 2 = 1 ∧ rest = [⟨.eof, []⟩]) := by
  obtain ⟨semi, hsplit⟩ := hleaves.split
  have hne : rest ≠ [] := by
    rw [handleInput_eq] at hleaves
    exact hleaves.ne_nil rfl
  rw [← used_closed_iff hsplit hne, ← hcore.separated_iff semi, ← map_token_used hsplit hne]
  exact ⟨fun h => ⟨⟨h.columns, h.values⟩, h.closed⟩, fun h => ⟨h.2, h.1.1, h.1.2⟩⟩

/-- Every accepted input has its closing quotes and its single commas, exactly when it is not a
statement with one of them missing or a comma too many. -/
theorem parse_delimited_iff (input : Str) :
    (∀ stmt rest, parse (handleInput input) = .ok (stmt, rest) → Delimited input stmt rest) ↔
      ¬ Loose input := by
  constructor
  · rintro h ⟨ls, core, stmt, rest, hwritten, hcore, hleaves, hloose⟩
    rw [← written_iff.mp hwritten, ← handleInput_eq] at hleaves
    obtain ⟨hchain, hquotes⟩ :=
      (delimited_iff hcore hleaves).mp (h stmt rest (parse_eq_ok.mpr ⟨core, hcore, hleaves⟩))
    exact hloose.elim (fun hnot => hnot hchain) hquotes
  · intro h stmt rest hparse
    obtain ⟨core, hcore, hleaves⟩ := parse_eq_ok.mp hparse
    have htokens := hleaves
    rw [handleInput_eq] at htokens
    refine (delimited_iff hcore hleaves).mpr ⟨?_, fun hodd => ?_⟩
    · by_contra hchain
      exact h ⟨_, core, stmt, rest, written_iff.mpr rfl, hcore, htokens, Or.inl hchain⟩
    · exact h ⟨_, core, stmt, rest, written_iff.mpr rfl, hcore, htokens, Or.inr hodd⟩

/-- `INSERT INTO t VALUES (1 2)` without a comma, `CREATE TABLE t (a INT,)` with one too many and
`DELETE FROM t WHERE a = 'x` without the closing quote are all accepted. -/
theorem parse_undelimited :
    (∃ stmt rest, parse (handleInput (lit "INSERT INTO t VALUES (1 2)")) = .ok (stmt, rest) ∧
      ¬ Delimited (lit "INSERT INTO t VALUES (1 2)") stmt rest) ∧
    (∃ stmt rest, parse (handleInput (lit "CREATE TABLE t (a INT,)")) = .ok (stmt, rest) ∧
      ¬ Delimited (lit "CREATE TABLE t (a INT,)") stmt rest) ∧
    (∃ stmt rest, parse (handleInput (lit "DELETE FROM t WHERE a = 'x")) = .ok (stmt, rest) ∧
      ¬ Delimited (lit "DELETE FROM t WHERE a = 'x") stmt rest) := by
  refine ⟨⟨{ type := .insert, tableName := lit "t", values := [lit "1", lit "2"] },
    [⟨.eof, []⟩], by decide, fun h => ?_⟩,
    ⟨{ type := .createTable, tableName := lit "t", columns := [⟨lit "a", lit "INT"⟩] },
    [⟨.eof, []⟩], by decide, fun h => ?_⟩,
    ⟨{ type := .delete, tableName := lit "t", hasWhere := true, where_ := ⟨lit "a", lit "x"⟩ },
    [⟨.eof, []⟩], by decide, fun h => ?_⟩⟩
  · have hlist : parenthesized ((used (lit "INSERT INTO t VALUES (1 2)") [⟨.eof, []⟩]).map
        Lexeme.token) = [⟨.number, lit "1"⟩] ++ [⟨.number, lit "2"⟩] := by decide
    have hone : IsSingleValue [⟨.number, lit "1"⟩] := ⟨_, Or.inl rfl, rfl⟩
    rcases (h.values rfl).tail guards_values hone hlist with hnil | ⟨c, tl, heq, hc, -, -⟩
    · exact absurd hnil (by simp)
    · obtain ⟨rfl, -⟩ := List.cons.inj heq
      exact absurd hc (by decide)
  · have hlist : parenthesized ((used (lit "CREATE TABLE t (a INT,)") [⟨.eof, []⟩]).map
        Lexeme.token) = [⟨.identifier, lit "a"⟩, ⟨.int, lit "INT"⟩] ++ [⟨.comma, lit ","⟩] := by
      decide
    have hone : IsColumn [⟨.identifier, lit "a"⟩, ⟨.int, lit "INT"⟩] :=
      ⟨_, _, rfl, Or.inl rfl, rfl⟩
    rcases (h.columns rfl).tail guards_columns hone hlist with hnil | ⟨c, tl, heq, -, hne, -⟩
    · exact absurd hnil (by simp)
    · exact hne (List.cons.inj heq).2.symm
  · have hmem : (⟨⟨.string, lit "x"⟩, lit "'x"⟩ : Lexeme) ∈
        used (lit "DELETE FROM t WHERE a = 'x") [⟨.eof, []⟩] := by decide
    exact absurd (h.closed _ hmem rfl) (by unfold Lexeme.Closed; decide)

end MiniDB.Parser
