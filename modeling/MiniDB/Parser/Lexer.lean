import MiniDB.Parser.Parser

/-!
# The SQL lexer

`lexer.h` and `lexer.cpp`. The position of the lexer is the input from it on; a round of its loop
skips a byte of white space or takes one token. Every round consumes a byte, so that the length of
the input bounds their number. The character classes are those of the C locale.

Beside its tokens the input has lexemes: a token with the piece of the input it was taken from. A
quote outside a literal opens one and the next quote closes it, so that a literal is left open
exactly when the number of quotes is odd, and it is then the last lexeme.

## Main definitions

* `keywordType`, `nextToken`, `handleInput`: the lexer
* `Lexeme`, `lexemes`: the tokens with their pieces of the input
* `Lexeme.Closed`: a literal with its two quotes
* `Takes`, `Written`: the lexical grammar, written down independently of the lexer

## Main results

* `written_iff`: the lexer is the lexical grammar
* `Written.literals`: which literals are closed, by the parity of the quotes
-/

namespace MiniDB.Lexer

/-! ## The lexer -/

/-- `isalpha`. -/
def isAlpha (c : UInt8) : Bool := (65 ≤ c && c ≤ 90) || (97 ≤ c && c ≤ 122)

/-- A byte of a word after its first: a letter, a digit or an underscore. -/
def isWordByte (c : UInt8) : Bool := isAlpha c || isDigit c || c = 95

/-- `toUpper`. -/
def toUpper (s : Str) : Str := s.map fun c => if 97 ≤ c && c ≤ 122 then c - 32 else c

/-- `Lexer::keywordType`. -/
def keywordType (word : Str) : TokenType :=
  let upper := toUpper word
  if upper = lit "SELECT" then .select
  else if upper = lit "INSERT" then .insert
  else if upper = lit "INTO" then .into
  else if upper = lit "VALUES" then .values
  else if upper = lit "FROM" then .from
  else if upper = lit "WHERE" then .where
  else if upper = lit "CREATE" then .create
  else if upper = lit "TABLE" then .table
  else if upper = lit "DELETE" then .delete
  else if upper = lit "INT" then .int
  else if upper = lit "TEXT" then .text
  else .identifier

/-- The single quote around a string literal. -/
def quote : UInt8 := 39

/-- The single-character symbols. -/
def symbolType (c : UInt8) : Option TokenType :=
  if c = 42 then some .star
  else if c = 44 then some .comma
  else if c = 40 then some .lparen
  else if c = 41 then some .rparen
  else if c = 59 then some .semicolon
  else if c = 61 then some .equals
  else none

/-- A round of the loop of `handleInput` at the byte `c`, with `rest` behind it: the token, if the
round takes one, and the input after it. -/
def nextToken (c : UInt8) (rest : Str) : Option Token × Str :=
  if isSpace c then (none, rest)
  else match symbolType c with
    | some type => (some ⟨type, [c]⟩, rest)
    | none =>
      if c = quote then
        -- The closing quote is skipped where there is one; at the end of the input there is none.
        (some ⟨.string, rest.takeWhile (· ≠ quote)⟩, (rest.dropWhile (· ≠ quote)).tail)
      else if isDigit c then
        (some ⟨.number, (c :: rest).takeWhile isDigit⟩, (c :: rest).dropWhile isDigit)
      else if isAlpha c || c = 95 then
        let word := (c :: rest).takeWhile isWordByte
        (some ⟨keywordType word, word⟩, (c :: rest).dropWhile isWordByte)
      else (some ⟨.unknown, [c]⟩, rest)

/-- The loop of `handleInput`, for at most `fuel` rounds. -/
def tokensFrom : ℕ → Str → List Token
  | fuel + 1, c :: rest => (nextToken c rest).1.toList ++ tokensFrom fuel (nextToken c rest).2
  | _, _ => []

/-- `Lexer::handleInput`. -/
def handleInput (input : Str) : List Token := tokensFrom input.length input ++ [⟨.eof, []⟩]

/-! ## Lexemes -/

/-- A token and the piece of the input it was taken from. -/
structure Lexeme where
  token : Token
  text : Str
deriving DecidableEq, Repr

/-- The literal is closed: its piece of the input is its value between two quotes. -/
def Lexeme.Closed (l : Lexeme) : Prop := l.text = quote :: (l.token.value ++ [quote])

/-- The rounds of the loop with the bytes each token was taken from. -/
def lexemesFrom : ℕ → Str → List Lexeme
  | fuel + 1, c :: rest =>
    let input := c :: rest
    let (tok, after) := nextToken c rest
    (tok.map fun tok => ⟨tok, input.take (input.length - after.length)⟩).toList ++
      lexemesFrom fuel after
  | _, _ => []

/-- The lexemes of an input. -/
def lexemes (input : Str) : List Lexeme := lexemesFrom input.length input

theorem map_token_lexemesFrom (fuel : ℕ) (input : Str) :
    (lexemesFrom fuel input).map Lexeme.token = tokensFrom fuel input := by
  induction fuel generalizing input with
  | zero => rfl
  | succ fuel ih =>
    cases input with
    | nil => rfl
    | cons c rest =>
      simp only [lexemesFrom, tokensFrom, List.map_append, ih]
      cases (nextToken c rest).1 <;> rfl

/-- The tokens of the input are those of its lexemes. -/
theorem handleInput_eq (input : Str) :
    handleInput input = (lexemes input).map Lexeme.token ++ [⟨.eof, []⟩] := by
  rw [handleInput, lexemes, map_token_lexemesFrom]

/-! ## The lexical grammar -/

/-- The input goes on with a byte outside the class, or not at all. -/
def Stops (p : UInt8 → Bool) (rest : Str) : Prop := ∀ c tl, rest = c :: tl → p c = false

/-- The bytes a token, or a byte of white space, is written with before `rest`. -/
inductive Takes : Option Token → Str → Str → Prop
  | space {c : UInt8} {rest : Str} : isSpace c = true → Takes none [c] rest
  | symbol {c : UInt8} {type : TokenType} {rest : Str} : symbolType c = some type →
    Takes (some ⟨type, [c]⟩) [c] rest
  | closed {s rest : Str} : quote ∉ s → Takes (some ⟨.string, s⟩) (quote :: (s ++ [quote])) rest
  | unclosed {s : Str} : quote ∉ s → Takes (some ⟨.string, s⟩) (quote :: s) []
  | number {ds rest : Str} : ds ≠ [] → (∀ c ∈ ds, isDigit c = true) → Stops isDigit rest →
    Takes (some ⟨.number, ds⟩) ds rest
  | word {c : UInt8} {cs rest : Str} : (isAlpha c || c = 95) = true →
    (∀ c ∈ cs, isWordByte c = true) → Stops isWordByte rest →
    Takes (some ⟨keywordType (c :: cs), c :: cs⟩) (c :: cs) rest
  | unknown {c : UInt8} {rest : Str} : isSpace c = false → symbolType c = none → c ≠ quote →
    isDigit c = false → (isAlpha c || c = 95) = false → Takes (some ⟨.unknown, [c]⟩) [c] rest

/-- The input is written with these lexemes, and white space between them. -/
inductive Written : Str → List Lexeme → Prop
  | nil : Written [] []
  | round {tok : Option Token} {text rest : Str} {ls : List Lexeme} : Takes tok text rest →
    Written rest ls → Written (text ++ rest) ((tok.map fun tok => ⟨tok, text⟩).toList ++ ls)

/-- A run of bytes of a class, and where it stops. -/
theorem takeRun (p : UInt8 → Bool) (s : Str) :
    (∀ c ∈ s.takeWhile p, p c = true) ∧ Stops p (s.dropWhile p) ∧
      s = s.takeWhile p ++ s.dropWhile p := by
  refine ⟨fun c h => List.mem_takeWhile_imp h, fun c tl h => ?_,
    List.takeWhile_append_dropWhile.symm⟩
  have hhead := List.head?_dropWhile_not p s
  rw [h] at hhead
  simpa using hhead

/-- A run is taken whole. -/
theorem takeWhile_run {p : UInt8 → Bool} {cs rest : Str} (hcs : ∀ c ∈ cs, p c = true)
    (hrest : Stops p rest) :
    (cs ++ rest).takeWhile p = cs ∧ (cs ++ rest).dropWhile p = rest := by
  rw [List.takeWhile_append_of_pos hcs, List.dropWhile_append_of_pos hcs]
  cases rest with
  | nil => simp
  | cons c tl =>
    have hc : ¬ p c = true := by simp [hrest c tl rfl]
    rw [List.takeWhile_cons_of_neg hc, List.dropWhile_cons_of_neg hc, List.append_nil]
    exact ⟨rfl, rfl⟩

/-- What a round takes from the input is written there. -/
theorem nextToken_takes (c : UInt8) (rest : Str) : ∃ text,
    c :: rest = text ++ (nextToken c rest).2 ∧
      Takes (nextToken c rest).1 text (nextToken c rest).2 := by
  unfold nextToken
  by_cases hspace : isSpace c
  · simp only [hspace, if_true]
    exact ⟨[c], rfl, .space hspace⟩
  simp only [hspace, Bool.false_eq_true, if_false]
  cases hsymbol : symbolType c with
  | some type => exact ⟨[c], rfl, .symbol hsymbol⟩
  | none =>
    by_cases hq : c = quote
    · obtain ⟨hrun, hstop, hsplit⟩ := takeRun (fun c => c ≠ quote) rest
      have hmem : quote ∉ rest.takeWhile (· ≠ quote) := fun h => absurd (hrun _ h) (by simp)
      simp only [hq, if_true]
      cases hdrop : rest.dropWhile (· ≠ quote) with
      | nil =>
        refine ⟨quote :: rest.takeWhile (· ≠ quote), ?_, .unclosed hmem⟩
        rw [hdrop, List.append_nil] at hsplit
        simpa using hsplit
      | cons q after =>
        obtain rfl : q = quote := by simpa using hstop q after hdrop
        refine ⟨quote :: (rest.takeWhile (· ≠ quote) ++ [quote]), ?_, .closed hmem⟩
        rw [hdrop] at hsplit
        simpa using hsplit
    simp only [hq, if_false]
    by_cases hdigit : isDigit c
    · obtain ⟨hrun, hstop, hsplit⟩ := takeRun isDigit (c :: rest)
      simp only [hdigit, if_true]
      exact ⟨_, hsplit, .number (by simp [hdigit]) hrun hstop⟩
    simp only [hdigit, Bool.false_eq_true, if_false]
    by_cases hword : (isAlpha c || c = 95) = true
    · have hbyte : isWordByte c = true := by
        simp only [isWordByte, Bool.or_eq_true] at hword ⊢
        exact hword.imp Or.inl id
      obtain ⟨hrun, hstop, hsplit⟩ := takeRun isWordByte rest
      simp only [hword, if_true, List.takeWhile_cons_of_pos hbyte, List.dropWhile_cons_of_pos hbyte]
      exact ⟨_, congrArg (c :: ·) hsplit, .word hword hrun hstop⟩
    · simp only [hword]
      exact ⟨[c], rfl, .unknown (by simpa using hspace) hsymbol hq (by simpa using hdigit)
        (by simpa using hword)⟩

theorem symbolType_disjoint {c : UInt8} {type : TokenType} (h : symbolType c = some type) :
    isSpace c = false ∧ c ≠ quote := by
  simp only [isSpace, symbolType, quote] at *
  constructor <;> grind

theorem isDigit_disjoint {c : UInt8} (h : isDigit c = true) :
    isSpace c = false ∧ symbolType c = none ∧ c ≠ quote := by
  simp only [isDigit, isSpace, symbolType, quote] at *
  refine ⟨?_, ?_, ?_⟩ <;> grind

theorem isWord_disjoint {c : UInt8} (h : (isAlpha c || c = 95) = true) :
    isSpace c = false ∧ symbolType c = none ∧ c ≠ quote ∧ isDigit c = false := by
  simp only [isAlpha, isDigit, isSpace, symbolType, quote] at *
  refine ⟨?_, ?_, ?_, ?_⟩ <;> grind

theorem literal_run {s : Str} (hs : quote ∉ s) : ∀ c ∈ s, decide (c ≠ quote) = true := by
  intro c hc
  refine decide_eq_true ?_
  rintro rfl
  exact hs hc

/-- What is written at the front of the input is what a round takes. -/
theorem Takes.nextToken_eq {tok : Option Token} {text rest : Str} (h : Takes tok text rest) :
    ∃ c tl, text = c :: tl ∧ nextToken c (tl ++ rest) = (tok, rest) := by
  cases h with
  | @space c _ hspace => exact ⟨c, [], rfl, by simp [nextToken, hspace]⟩
  | @symbol c type _ hsymbol =>
    obtain ⟨hspace, -⟩ := symbolType_disjoint hsymbol
    exact ⟨c, [], rfl, by simp [nextToken, hspace, hsymbol]⟩
  | @closed s _ hs =>
    have hstop : Stops (fun c => c ≠ quote) (quote :: rest) := by
      rintro _ _ ⟨rfl⟩
      simp
    obtain ⟨htake, hdrop⟩ := takeWhile_run (literal_run hs) hstop
    refine ⟨quote, s ++ [quote], rfl, ?_⟩
    rw [List.append_assoc, List.singleton_append]
    simp only [nextToken, htake, hdrop, List.tail_cons]
    rfl
  | @unclosed s hs =>
    have hstop : Stops (fun c => c ≠ quote) [] := fun _ _ h => absurd h (by simp)
    obtain ⟨htake, hdrop⟩ := takeWhile_run (literal_run hs) hstop
    refine ⟨quote, s, rfl, ?_⟩
    simp only [nextToken, htake, hdrop, List.tail_nil]
    rfl
  | number hne hrun hstop =>
    obtain ⟨c, tl, rfl⟩ := List.exists_cons_of_ne_nil hne
    have hc := hrun c (by simp)
    obtain ⟨hspace, hsymbol, hquote⟩ := isDigit_disjoint hc
    obtain ⟨htake, hdrop⟩ := takeWhile_run hrun hstop
    rw [List.cons_append] at htake hdrop
    exact ⟨c, tl, rfl, by simp only [nextToken, hspace, hsymbol, hquote, hc, htake, hdrop,
      Bool.false_eq_true, if_false, if_true]⟩
  | @word c cs _ hc hrun hstop =>
    obtain ⟨hspace, hsymbol, hquote, hdigit⟩ := isWord_disjoint hc
    have hbyte : isWordByte c = true := by
      simp only [isWordByte, Bool.or_eq_true] at hc ⊢
      exact hc.imp Or.inl id
    obtain ⟨htake, hdrop⟩ := takeWhile_run hrun hstop
    refine ⟨c, cs, rfl, ?_⟩
    simp only [nextToken, hspace, hsymbol, hquote, hdigit, hc, Bool.false_eq_true, if_false, if_true,
      List.takeWhile_cons_of_pos hbyte, List.dropWhile_cons_of_pos hbyte, htake, hdrop]
  | @unknown c _ hspace hsymbol hquote hdigit hword =>
    exact ⟨c, [], rfl, by simp only [nextToken, List.nil_append, hspace, hsymbol, hquote, hdigit,
      hword, Bool.false_eq_true, if_false]⟩

theorem written_lexemesFrom (fuel : ℕ) (input : Str) (hfuel : input.length ≤ fuel) :
    Written input (lexemesFrom fuel input) := by
  induction fuel generalizing input with
  | zero =>
    obtain rfl := List.length_eq_zero_iff.mp (Nat.le_zero.mp hfuel)
    exact .nil
  | succ fuel ih =>
    cases input with
    | nil => exact .nil
    | cons c rest =>
      obtain ⟨text, hsplit, htakes⟩ := nextToken_takes c rest
      have hlength := congrArg List.length hsplit
      rw [List.length_append] at hlength
      have hrest : (nextToken c rest).2.length ≤ fuel := by
        obtain ⟨_, _, htext, -⟩ := htakes.nextToken_eq
        rw [htext] at hlength
        simp only [List.length_cons] at hlength hfuel
        omega
      have htext : (c :: rest).take ((c :: rest).length - (nextToken c rest).2.length) = text := by
        rw [hlength, Nat.add_sub_cancel]
        conv_lhs => rw [hsplit, List.take_left]
      have hround := Written.round htakes (ih _ hrest)
      simp only [lexemesFrom, htext]
      rwa [← hsplit] at hround

theorem Written.lexemesFrom_eq {input : Str} {ls : List Lexeme} (h : Written input ls) :
    ∀ fuel, input.length ≤ fuel → lexemesFrom fuel input = ls := by
  induction h with
  | nil => intro fuel _; cases fuel <;> rfl
  | @round tok text rest ls htakes _ ih =>
    intro fuel hfuel
    obtain ⟨c, tl, rfl, hnext⟩ := htakes.nextToken_eq
    cases fuel with
    | zero => simp at hfuel
    | succ fuel =>
      have hrest : rest.length ≤ fuel := by
        simp only [List.length_append, List.length_cons] at hfuel
        omega
      have htext : (c :: (tl ++ rest)).take ((c :: (tl ++ rest)).length - rest.length) = c :: tl := by
        rw [← List.cons_append, List.length_append, Nat.add_sub_cancel, List.take_left]
      simp only [List.cons_append, lexemesFrom, hnext, htext, ih fuel hrest]

/-- The lexer is the lexical grammar: an input is written with its lexemes and no others. -/
theorem written_iff {input : Str} {ls : List Lexeme} : Written input ls ↔ lexemes input = ls := by
  constructor
  · exact fun h => h.lexemesFrom_eq input.length le_rfl
  · rintro rfl
    exact written_lexemesFrom input.length input le_rfl

/-! ## Open literals -/

theorem ite_mem {p : Prop} [Decidable p] {type other : TokenType} {types : List TokenType}
    (h : type ∈ types) (hother : other ∈ types) : (if p then type else other) ∈ types := by
  split
  · exact h
  · exact hother

/-- The types of words: the keywords, and identifiers. -/
theorem keywordType_mem (word : Str) : keywordType word ∈ [.select, .insert, .into, .values, .from,
    .where, .create, .table, .delete, .int, .text, TokenType.identifier] := by
  unfold keywordType
  iterate 11 refine ite_mem (by decide) ?_
  decide

theorem keywordType_ne_string (word : Str) : keywordType word ≠ .string := by
  intro h
  exact absurd (h ▸ keywordType_mem word) (by decide)

theorem symbolType_ne_string (c : UInt8) : symbolType c ≠ some .string := by
  unfold symbolType
  split_ifs <;> decide

/-- What is not a literal is written without a quote. -/
theorem Takes.no_quote {tok : Option Token} {text rest : Str} (h : Takes tok text rest)
    (htok : ∀ t, tok = some t → t.type ≠ .string) : quote ∉ text := by
  cases h with
  | space hspace =>
    refine fun hmem => ?_
    rw [← List.mem_singleton.mp hmem] at hspace
    exact absurd hspace (by decide)
  | symbol hsymbol => simpa using (symbolType_disjoint hsymbol).2.symm
  | closed | unclosed => exact absurd rfl (htok _ rfl)
  | number _ hrun => exact fun hmem => absurd (hrun _ hmem) (by decide)
  | word hc hrun =>
    intro hmem
    rcases List.mem_cons.mp hmem with heq | hmem
    · exact (isWord_disjoint hc).2.2.1 heq.symm
    · exact absurd (hrun _ hmem) (by decide)
  | unknown _ _ hquote => simpa using hquote.symm

/-- A literal is written with its value between two quotes, or behind one at the end. -/
theorem Takes.literal {t : Token} {text rest : Str} (h : Takes (some t) text rest)
    (ht : t.type = .string) : quote ∉ t.value ∧
      (text = quote :: (t.value ++ [quote]) ∨ (text = quote :: t.value ∧ rest = [])) := by
  cases h with
  | @symbol c type _ hsymbol =>
    obtain rfl : type = .string := ht
    exact absurd hsymbol (symbolType_ne_string c)
  | closed hs => exact ⟨hs, Or.inl rfl⟩
  | unclosed hs => exact ⟨hs, Or.inr ⟨rfl, rfl⟩⟩
  | number | unknown => exact absurd ht (by simp)
  | word => exact absurd ht (keywordType_ne_string _)

/-- With an even number of quotes every literal of the input is closed; with an odd number the last
lexeme is a literal that is not, and it is the only one. -/
theorem Written.literals {input : Str} {ls : List Lexeme} (h : Written input ls) :
    ∃ init last, ls = init ++ last ∧ (∀ l ∈ init, l.token.type = .string → l.Closed) ∧
      ((input.count quote % 2 = 0 ∧ last = []) ∨ (input.count quote % 2 = 1 ∧
        ∃ l : Lexeme, last = [l] ∧ l.token.type = .string ∧ ¬ l.Closed)) := by
  induction h with
  | nil => exact ⟨[], [], rfl, by simp, Or.inl ⟨rfl, rfl⟩⟩
  | @round tok text rest ls htakes hrest ih =>
    obtain ⟨init, last, rfl, hclosed, hparity⟩ := ih
    rw [List.count_append]
    by_cases htok : ∃ t, tok = some t ∧ t.type = .string
    · obtain ⟨t, rfl, ht⟩ := htok
      obtain ⟨hs, rfl | ⟨rfl, rfl⟩⟩ := htakes.literal ht
      · have hcount : (quote :: (t.value ++ [quote])).count quote = 2 := by
          simp [List.count_eq_zero_of_not_mem hs]
        rw [hcount, Nat.add_mod_left]
        refine ⟨⟨t, quote :: (t.value ++ [quote])⟩ :: init, last, rfl, ?_, hparity⟩
        intro l hl htype
        rcases List.mem_cons.mp hl with rfl | hl
        · rfl
        · exact hclosed l hl htype
      · have hcount : (quote :: t.value).count quote = 1 := by
          simp [List.count_eq_zero_of_not_mem hs]
        have hnil : init ++ last = [] := (written_iff.mp hrest).symm
        refine ⟨[], [⟨t, quote :: t.value⟩], by simp [hnil], by simp, Or.inr ⟨?_, ?_⟩⟩
        · rw [hcount]
          rfl
        · exact ⟨_, rfl, ht, by simp [Lexeme.Closed]⟩
    · have hmem := htakes.no_quote fun t ht htype => htok ⟨t, ht, htype⟩
      rw [List.count_eq_zero_of_not_mem hmem, Nat.zero_add]
      refine ⟨(tok.map fun tok => ⟨tok, text⟩).toList ++ init, last, by simp, ?_, hparity⟩
      intro l hl htype
      rcases List.mem_append.mp hl with hl | hl
      · obtain ⟨t, ht, rfl⟩ : ∃ t, tok = some t ∧ (⟨t, text⟩ : Lexeme) = l := by simpa using hl
        exact absurd ⟨t, ht, htype⟩ htok
      · exact hclosed l hl htype

end MiniDB.Lexer
