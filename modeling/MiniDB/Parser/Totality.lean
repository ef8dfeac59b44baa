import MiniDB.Parser.Grammar
import MiniDB.Parser.Lexer

/-!
# The front end always answers

The lexer reads its input to the end and puts one end marker behind the tokens. The parser never
passes the marker: it moves on only from tokens that are not the marker, and every round of its loops
takes a token or throws. So the tokens it has left bound the rounds it has left, and every read is
one of a token that is there.

## Main definitions

* `Lexer.restFrom`: the input that rounds of the lexer have left
* `Parser.Stream n ts`: at most `n` tokens with an end marker behind them
* `Parser.Thrown`: the error is a `std::runtime_error`

## Main results

* `Lexer.handleInput_marked`: the tokens of the lexer
* `Parser.ends_parse`: the parser on a stream
* `Parser.frontEnd_total`: both on every input
-/

namespace MiniDB

namespace Lexer

/-- The input that at most `fuel` rounds of the loop of `handleInput` have left. -/
def restFrom : ℕ → Str → Str
  | fuel + 1, c :: rest => restFrom fuel (nextToken c rest).2
  | _, input => input

/-- Every round takes something off the input. -/
theorem length_nextToken_lt (c : UInt8) (rest : Str) :
    (nextToken c rest).2.length < (c :: rest).length := by
  obtain ⟨text, hsplit, htakes⟩ := nextToken_takes c rest
  obtain ⟨_, _, rfl, -⟩ := htakes.nextToken_eq
  have hlength := congrArg List.length hsplit
  simp only [List.length_append, List.length_cons] at hlength ⊢
  omega

/-- The loop comes to the end of the input, however long it is allowed to run after that. -/
theorem rounds_end (fuel : ℕ) (input : Str) (hfuel : input.length ≤ fuel) :
    restFrom fuel input = [] ∧ tokensFrom fuel input = tokensFrom input.length input := by
  refine ⟨?_, ?_⟩
  · induction fuel generalizing input with
    | zero => exact List.length_eq_zero_iff.mp (Nat.le_zero.mp hfuel)
    | succ fuel ih =>
      cases input with
      | nil => rfl
      | cons c rest =>
        have hlt := length_nextToken_lt c rest
        exact ih _ (by omega)
  · rw [← map_token_lexemesFrom, ← map_token_lexemesFrom,
      (written_lexemesFrom input.length input le_rfl).lexemesFrom_eq fuel hfuel]

theorem keywordType_ne_eof (word : Str) : keywordType word ≠ .eof := by
  intro h
  exact absurd (h ▸ keywordType_mem word) (by decide)

theorem symbolType_ne_eof (c : UInt8) : symbolType c ≠ some .eof := by
  unfold symbolType
  split_ifs <;> decide

/-- No round takes an end marker. -/
theorem Takes.ne_eof {t : Token} {text rest : Str} (h : Takes (some t) text rest) :
    t.type ≠ .eof := by
  cases h with
  | @symbol c type _ hsymbol =>
    rintro rfl
    exact symbolType_ne_eof c hsymbol
  | closed | unclosed | number | unknown => simp
  | word => exact keywordType_ne_eof _

theorem Written.ne_eof {input : Str} {ls : List Lexeme} (h : Written input ls) :
    ∀ l ∈ ls, l.token.type ≠ .eof := by
  induction h with
  | nil => simp
  | @round tok text rest ls htakes _ ih =>
    intro l hl
    rcases List.mem_append.mp hl with hl | hl
    · obtain ⟨t, rfl, rfl⟩ : ∃ t, tok = some t ∧ (⟨t, text⟩ : Lexeme) = l := by simpa using hl
      exact htakes.ne_eof
    · exact ih l hl

/-- The tokens of an input: one end marker, behind all others. -/
theorem handleInput_marked (input : Str) :
    ∃ ts, handleInput input = ts ++ [⟨.eof, []⟩] ∧ ∀ t ∈ ts, t.type ≠ .eof := by
  refine ⟨(lexemes input).map Lexeme.token, handleInput_eq input, fun t ht => ?_⟩
  obtain ⟨l, hl, rfl⟩ := List.mem_map.mp ht
  exact (written_iff.mpr rfl).ne_eof l hl

end Lexer

namespace Parser

open Machine

/-- At most `n` tokens, the last of them an end marker. -/
def Stream (n : ℕ) (ts : List Token) : Prop :=
  (∃ init eof, ts = init ++ [eof] ∧ eof.type = .eof) ∧ ts.length ≤ n

/-- A `std::runtime_error`. -/
def Thrown (e : ParseError) : Prop := ∃ what, e = .runtimeError what

variable {n : ℕ} {ts : List Token} {type : TokenType} {msg : String}

namespace Stream

theorem mono (h : Stream n ts) {m : ℕ} (hm : n ≤ m) : Stream m ts :=
  ⟨h.1, Nat.le_trans h.2 hm⟩

theorem self (h : Stream n ts) : Stream ts.length ts := ⟨h.1, Nat.le_refl _⟩

/-- There is a token to read. -/
theorem exists_cons (h : Stream n ts) : ∃ t tl, ts = t :: tl := by
  obtain ⟨⟨init, eof, rfl, -⟩, -⟩ := h
  cases init with
  | nil => exact ⟨eof, [], rfl⟩
  | cons t init => exact ⟨t, init ++ [eof], rfl⟩

theorem exists_succ (h : Stream n ts) : ∃ m, n = m + 1 := by
  obtain ⟨t, tl, rfl⟩ := h.exists_cons
  exact Nat.exists_eq_add_one.mpr (Nat.lt_of_lt_of_le (Nat.succ_pos _) h.2)

/-- Behind a token that is not the marker there are more. -/
theorem tail {t : Token} (h : Stream (n + 1) (t :: ts)) (ht : t.type ≠ .eof) : Stream n ts := by
  obtain ⟨⟨init, eof, heq, heof⟩, hlen⟩ := h
  refine ⟨?_, Nat.le_of_succ_le_succ hlen⟩
  cases init with
  | nil =>
    obtain ⟨rfl, -⟩ := List.cons.inj heq
    exact absurd heof ht
  | cons t' init =>
    obtain ⟨-, rfl⟩ := List.cons.inj heq
    exact ⟨init, eof, rfl, heof⟩

/-- The stream behind a token, with no account of its length. -/
theorem tail_le {t : Token} (h : Stream n (t :: ts)) (ht : t.type ≠ .eof) : Stream n ts :=
  ((h.mono (Nat.le_succ n)).tail ht)

end Stream

/-! ## Single tokens -/

theorem ends_fail {α : Type} {Q : α → Prop} (h : Stream n ts) : Ensures Thrown Q (fail ts msg) := by
  obtain ⟨t, tl, rfl⟩ := h.exists_cons
  exact ⟨_, rfl⟩

theorem ends_expect (h : Stream (n + 1) ts) (htype : type ≠ .eof) :
    Ensures Thrown (fun r => Stream n r.2) (expect ts type msg) := by
  obtain ⟨t, tl, rfl⟩ := h.exists_cons
  by_cases ht : t.type = type
  · rw [expect_cons ht htype]
    exact h.tail (ht ▸ htype)
  · simp only [expect, check_cons, ok_bind, ht, decide_false, Bool.false_eq_true, if_false]
    exact ends_fail h

theorem ends_matchToken (h : Stream n ts) (htype : type ≠ .eof) :
    Ensures Thrown (fun r => Stream n r.2) (matchToken ts type) := by
  obtain ⟨t, tl, rfl⟩ := h.exists_cons
  by_cases ht : t.type = type
  · rw [matchToken_cons ht htype]
    exact h.tail_le (ht ▸ htype)
  · rw [matchToken_cons_ne ht htype]
    exact h

theorem ends_skipComma (h : Stream n ts) : Ensures Thrown (Stream n) (skipComma ts) := by
  obtain ⟨t, tl, rfl⟩ := h.exists_cons
  simp only [skipComma, check_cons, ok_bind]
  by_cases ht : t.type = .comma
  · have hne : t.type ≠ .eof := by simp [ht]
    simp only [ht, decide_true, if_true, advance_cons hne, ok_bind]
    exact h.tail_le hne
  · simp only [ht, decide_false, Bool.false_eq_true, if_false]
    exact h

theorem ends_parseColumnType (h : Stream (n + 1) ts) :
    Ensures Thrown (fun r => Stream n r.2) (parseColumnType ts) := by
  obtain ⟨t, tl, rfl⟩ := h.exists_cons
  simp only [parseColumnType, check_cons, ok_bind]
  by_cases hint : t.type = .int
  · have hne : t.type ≠ .eof := by simp [hint]
    simp only [hint, decide_true, if_true, advance_cons hne, ok_bind]
    exact h.tail hne
  by_cases htext : t.type = .text
  · have hne : t.type ≠ .eof := by simp [htext]
    simp only [htext, reduceCtorEq, decide_false, Bool.false_eq_true, if_false, decide_true, if_true,
      advance_cons hne, ok_bind]
    exact h.tail hne
  · simp only [hint, htext, decide_false, Bool.false_eq_true, if_false]
    exact ends_fail h

/-- A value is taken where there is one. -/
theorem isValue_cases (h : Stream (n + 1) ts) :
    (∃ t tl, isValue ts = .ok true ∧ current ts = .ok t ∧ advance ts = .ok (t, tl) ∧ Stream n tl) ∨
      isValue ts = .ok false := by
  obtain ⟨t, tl, rfl⟩ := h.exists_cons
  by_cases ht : IsValue t
  · exact Or.inl ⟨t, tl, isValue_cons.mpr (iff_of_true rfl ht), rfl, advance_cons ht.ne.1,
      h.tail ht.ne.1⟩
  · exact Or.inr (isValue_cons.mpr (iff_of_false Bool.false_ne_true ht))

/-! ## Loops -/

/-- The loop over the columns: a round takes a name and a type. -/
theorem ends_parseColumns : ∀ {fuel n : ℕ} {ts : List Token} (cols : List ColumnDef), Stream n ts →
    n ≤ fuel → Ensures Thrown (fun r => Stream n r.2) (parseColumns fuel ts cols)
  | 0, n, _, _, h, hfuel => by
    obtain ⟨m, rfl⟩ := h.exists_succ
    exact absurd hfuel (Nat.not_succ_le_zero m)
  | fuel + 1, n, ts, cols, h, hfuel => by
    obtain ⟨m, rfl⟩ := h.exists_succ
    obtain ⟨t, tl, rfl⟩ := h.exists_cons
    simp only [parseColumns, check_cons, ok_bind]
    split
    case isTrue => exact h
    case isFalse =>
      refine (ends_expect h (by decide)).bind fun r hr => ?_
      refine (ends_parseColumnType (hr.mono (Nat.le_succ m))).bind fun r' hr' => ?_
      refine (ends_skipComma hr').bind fun ts' hts' => ?_
      have hrest := ends_parseColumns (cols ++ [⟨r.1.value, r'.1⟩]) hts'
        (Nat.le_of_succ_le_succ hfuel)
      exact hrest.mono fun _ h' => h'.mono (Nat.le_succ m)

/-- The loop over the values: a round takes a value. -/
theorem ends_parseValues : ∀ {fuel n : ℕ} {ts : List Token} (vals : List Str), Stream n ts →
    n ≤ fuel → Ensures Thrown (fun r => Stream n r.2) (parseValues fuel ts vals)
  | 0, n, _, _, h, hfuel => by
    obtain ⟨m, rfl⟩ := h.exists_succ
    exact absurd hfuel (Nat.not_succ_le_zero m)
  | fuel + 1, n, ts, vals, h, hfuel => by
    obtain ⟨m, rfl⟩ := h.exists_succ
    obtain ⟨t, tl, rfl⟩ := h.exists_cons
    simp only [parseValues, check_cons, ok_bind]
    split
    case isTrue => exact h
    case isFalse =>
      rcases isValue_cases h with ⟨tok, tl', hvalue, hcurrent, hadvance, htl'⟩ | hvalue
      · simp only [hvalue, hcurrent, hadvance, ok_bind, if_true]
        refine (ends_skipComma htl').bind fun ts' hts' => ?_
        have hrest := ends_parseValues (vals ++ [tok.value]) hts' (Nat.le_of_succ_le_succ hfuel)
        exact hrest.mono fun _ h' => h'.mono (Nat.le_succ m)
      · rw [hvalue]
        exact ends_fail h

/-- The loop over the column names: a round takes a name. -/
theorem ends_parseSelectColumns : ∀ {fuel n : ℕ} {ts : List Token} (cols : List Str), Stream n ts →
    n ≤ fuel → Ensures Thrown (fun r => Stream n r.2) (parseSelectColumns fuel ts cols)
  | 0, n, _, _, h, hfuel => by
    obtain ⟨m, rfl⟩ := h.exists_succ
    exact absurd hfuel (Nat.not_succ_le_zero m)
  | fuel + 1, n, ts, cols, h, hfuel => by
    obtain ⟨m, rfl⟩ := h.exists_succ
    refine (ends_expect h (by decide)).bind ?_
    rintro ⟨col, ts₁⟩ h₁
    refine (ends_matchToken h₁ (by decide)).bind ?_
    rintro ⟨comma, ts₂⟩ h₂
    cases comma with
    | true =>
      have hrest := ends_parseSelectColumns (cols ++ [col.value]) h₂ (Nat.le_of_succ_le_succ hfuel)
      exact hrest.mono fun _ h' => h'.mono (Nat.le_succ m)
    | false => exact h₂.mono (Nat.le_succ m)

/-! ## Statements -/

/-- One token taken, with no account of it. -/
theorem ends_take (h : Stream n ts) (htype : type ≠ .eof) :
    Ensures Thrown (fun r => Stream n r.2) (expect ts type msg) :=
  ends_expect (h.mono (Nat.le_succ n)) htype

theorem ends_parseCreateTable (h : Stream n ts) :
    Ensures Thrown (fun r => Stream n r.2) (parseCreateTable ts) := by
  refine (ends_take h (by decide)).bind fun _ h₁ => ?_
  refine (ends_take h₁ (by decide)).bind fun _ h₂ => ?_
  refine (ends_take h₂ (by decide)).bind fun _ h₃ => ?_
  refine (ends_take h₃ (by decide)).bind fun _ h₄ => ?_
  refine (ends_parseColumns [] h₄.self (Nat.le_succ _)).bind fun _ h₅ => ?_
  refine (ends_take (h₅.mono h₄.2) (by decide)).bind fun _ h₆ => ?_
  exact (ends_matchToken h₆ (by decide)).bind fun _ h₇ => h₇

theorem ends_parseInsert (h : Stream n ts) :
    Ensures Thrown (fun r => Stream n r.2) (parseInsert ts) := by
  refine (ends_take h (by decide)).bind fun _ h₁ => ?_
  refine (ends_take h₁ (by decide)).bind fun _ h₂ => ?_
  refine (ends_take h₂ (by decide)).bind fun _ h₃ => ?_
  refine (ends_take h₃ (by decide)).bind fun _ h₄ => ?_
  refine (ends_take h₄ (by decide)).bind fun _ h₅ => ?_
  refine (ends_parseValues [] h₅.self (Nat.le_succ _)).bind fun _ h₆ => ?_
  refine (ends_take (h₆.mono h₅.2) (by decide)).bind fun _ h₇ => ?_
  exact (ends_matchToken h₇ (by decide)).bind fun _ h₈ => h₈

theorem ends_parseWhere (h : Stream n ts) :
    Ensures Thrown (fun r => Stream n r.2) (parseWhere ts) := by
  refine (ends_take h (by decide)).bind fun _ h₁ => ?_
  refine (ends_take h₁ (by decide)).bind fun _ h₂ => ?_
  refine (ends_take h₂ (by decide)).bind ?_
  rintro ⟨eq, ts₃⟩ h₃
  rcases isValue_cases (h₃.mono (Nat.le_succ n)) with
    ⟨tok, tl, hvalue, hcurrent, hadvance, htl⟩ | hvalue
  · simp only [hvalue, hcurrent, hadvance, ok_bind, if_true]
    exact htl
  · simp only [hvalue, ok_bind, Bool.false_eq_true, if_false]
    exact ends_fail h₃

theorem ends_parseOptWhere (stmt : Statement) (h : Stream n ts) :
    Ensures Thrown (fun r => Stream n r.2) (parseOptWhere stmt ts) := by
  obtain ⟨t, tl, rfl⟩ := h.exists_cons
  simp only [parseOptWhere, check_cons, ok_bind]
  split
  case isTrue => exact (ends_parseWhere h).bind fun _ h₁ => h₁
  case isFalse => exact h

theorem ends_parseSelectList (h : Stream n ts) :
    Ensures Thrown (fun r => Stream n r.2.2) (parseSelectList ts) := by
  refine (ends_matchToken h (by decide)).bind ?_
  rintro ⟨star, ts₁⟩ h₁
  cases star with
  | true => exact h₁
  | false =>
    refine (ends_parseSelectColumns [] h₁.self (Nat.le_succ _)).bind fun _ h₂ => ?_
    exact h₂.mono h₁.2

theorem ends_parseSelect (h : Stream n ts) :
    Ensures Thrown (fun r => Stream n r.2) (parseSelect ts) := by
  refine (ends_take h (by decide)).bind fun _ h₁ => ?_
  refine (ends_parseSelectList h₁).bind fun _ h₂ => ?_
  refine (ends_take h₂ (by decide)).bind fun _ h₃ => ?_
  refine (ends_take h₃ (by decide)).bind fun _ h₄ => ?_
  refine (ends_parseOptWhere _ h₄).bind fun _ h₅ => ?_
  exact (ends_matchToken h₅ (by decide)).bind fun _ h₆ => h₆

theorem ends_parseDelete (h : Stream n ts) :
    Ensures Thrown (fun r => Stream n r.2) (parseDelete ts) := by
  refine (ends_take h (by decide)).bind fun _ h₁ => ?_
  refine (ends_take h₁ (by decide)).bind fun _ h₂ => ?_
  refine (ends_take h₂ (by decide)).bind fun _ h₃ => ?_
  refine (ends_parseOptWhere _ h₃).bind fun _ h₄ => ?_
  exact (ends_matchToken h₄ (by decide)).bind fun _ h₅ => h₅

/-- The parser on tokens with an end marker returns a statement or throws, and it has not passed the
marker. -/
theorem ends_parse (h : Stream n ts) : Ensures Thrown (fun r => Stream n r.2) (parse ts) := by
  obtain ⟨t, tl, rfl⟩ := h.exists_cons
  simp only [parse, check_cons, ok_bind]
  split_ifs
  · exact ends_parseCreateTable h
  · exact ends_parseInsert h
  · exact ends_parseSelect h
  · exact ends_parseDelete h
  · exact ends_fail h

/-- Every input: the lexer comes to its end, with exactly one end marker, behind all other tokens,
and the parser returns a statement or throws a `std::runtime_error` without ever reading behind the
marker or running out of its rounds; where it has stopped there is still a token. -/
theorem frontEnd_total (input : Str) :
    (∀ fuel, input.length ≤ fuel → Lexer.restFrom fuel input = [] ∧
      Lexer.tokensFrom fuel input ++ [⟨.eof, []⟩] = Lexer.handleInput input) ∧
    (∃ ts, Lexer.handleInput input = ts ++ [⟨.eof, []⟩] ∧ ∀ t ∈ ts, t.type ≠ .eof) ∧
    ((∃ stmt t rest, parse (Lexer.handleInput input) = .ok (stmt, t :: rest)) ∨
      ∃ what, parse (Lexer.handleInput input) = .error (.runtimeError what)) := by
  refine ⟨fun fuel hfuel => ?_, Lexer.handleInput_marked input, ?_⟩
  · obtain ⟨hrest, htokens⟩ := Lexer.rounds_end fuel input hfuel
    exact ⟨hrest, by rw [htokens]; rfl⟩
  · obtain ⟨ts, hts, -⟩ := Lexer.handleInput_marked input
    have hends : Ensures Thrown _ (parse (Lexer.handleInput input)) :=
      ends_parse ⟨⟨ts, _, hts, rfl⟩, Nat.le_refl _⟩
    cases hparse : parse (Lexer.handleInput input) with
    | error e =>
      rw [hparse] at hends
      obtain ⟨what, rfl⟩ := hends
      exact Or.inr ⟨what, rfl⟩
    | ok r =>
      rw [hparse] at hends
      obtain ⟨t, rest, hrest⟩ := Stream.exists_cons hends
      exact Or.inl ⟨r.1, t, rest, congrArg Except.ok (Prod.ext rfl hrest)⟩

end Parser

end MiniDB
