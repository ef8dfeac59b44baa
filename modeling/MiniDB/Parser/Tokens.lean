import MiniDB.Parser.Lexer

/-!
# Writing tokens down

Tokens written with white space between them are read back by the lexer. A word or a number ends at
the white space behind it, a literal at its closing quote, and a symbol is a single byte, so that the
gap between two tokens is all that has to be looked at, whatever the two are.

## Main definitions

* `keywords`, `symbols`: the words and the bytes that are tokens of their own
* `Spelled`: the tokens that can be written down
* `Token.text`, `spaced`: the text of a token, and of tokens with the white space behind each

## Main results

* `handleInput_spaced`: the tokens are read back
-/

namespace MiniDB

/-- A token as it is written: a literal stands between quotes. -/
def Token.text (t : Token) : Str :=
  if t.type = .string then Lexer.quote :: (t.value ++ [Lexer.quote]) else t.value

namespace Lexer

/-- The keywords in capitals. -/
def keywords : List (String × TokenType) :=
  [("SELECT", .select), ("INSERT", .insert), ("INTO", .into), ("VALUES", .values), ("FROM", .from),
    ("WHERE", .where), ("CREATE", .create), ("TABLE", .table), ("DELETE", .delete), ("INT", .int),
    ("TEXT", .text)]

/-- The symbols: `*`, `,`, `(`, `)`, `;` and `=`. -/
def symbols : List (UInt8 × TokenType) :=
  [(42, .star), (44, .comma), (40, .lparen), (41, .rparen), (59, .semicolon), (61, .equals)]

/-- The tokens that can be written down: keywords in any letter case, identifiers that are no
keyword in any letter case, numbers, literals without a quote, and symbols. -/
inductive Spelled : Token → Prop
  | keyword {name : String} {type : TokenType} {word : Str} : (name, type) ∈ keywords →
    toUpper word = lit name → Spelled ⟨type, word⟩
  | identifier {c : UInt8} {cs : Str} : (isAlpha c || c = 95) = true →
    (∀ c ∈ cs, isWordByte c = true) → (∀ k ∈ keywords, toUpper (c :: cs) ≠ lit k.1) →
    Spelled ⟨.identifier, c :: cs⟩
  | number {ds : Str} : ds ≠ [] → (∀ c ∈ ds, isDigit c = true) → Spelled ⟨.number, ds⟩
  | string {s : Str} : quote ∉ s → Spelled ⟨.string, s⟩
  | symbol {c : UInt8} {type : TokenType} : (c, type) ∈ symbols → Spelled ⟨type, [c]⟩

/-- Tokens one after another, each with what is written behind it. -/
def spaced (ps : List (Token × Str)) : Str := ps.flatMap fun p => p.1.text ++ p.2

/-! ## Words -/

theorem keywordType_of_keyword {name : String} {type : TokenType} {word : Str}
    (hmem : (name, type) ∈ keywords) (hword : toUpper word = lit name) :
    keywordType word = type := by
  unfold keywordType
  rw [hword]
  simp only [keywords, List.mem_cons, Prod.mk.injEq, List.not_mem_nil, or_false] at hmem
  rcases hmem with ⟨rfl, rfl⟩ | ⟨rfl, rfl⟩ | ⟨rfl, rfl⟩ | ⟨rfl, rfl⟩ | ⟨rfl, rfl⟩ | ⟨rfl, rfl⟩ |
    ⟨rfl, rfl⟩ | ⟨rfl, rfl⟩ | ⟨rfl, rfl⟩ | ⟨rfl, rfl⟩ | ⟨rfl, rfl⟩ <;> decide

theorem keywordType_of_not_keyword {word : Str} (h : ∀ k ∈ keywords, toUpper word ≠ lit k.1) :
    keywordType word = .identifier := by
  simp only [keywords, List.forall_mem_cons] at h
  simp [keywordType, h]

/-- A byte is a letter when it is one in capitals. -/
theorem isAlpha_of_upper {c : UInt8}
    (h : isAlpha (if 97 ≤ c && c ≤ 122 then c - 32 else c) = true) : isAlpha c = true := by
  split at h
  case isTrue hlower => simp [isAlpha, hlower]
  case isFalse => exact h

/-- A keyword has letters only, and at least two of them. -/
theorem letters_of_keyword {name : String} {type : TokenType} {word : Str}
    (hmem : (name, type) ∈ keywords) (hword : toUpper word = lit name) :
    word ≠ [] ∧ ∀ c ∈ word, isAlpha c = true := by
  have hletters : (keywords.all fun k => !(lit k.1).isEmpty && (lit k.1).all isAlpha) = true := by
    decide
  obtain ⟨hne, hall⟩ : lit name ≠ [] ∧ ∀ c ∈ lit name, isAlpha c = true := by
    simpa only [Bool.and_eq_true, Bool.not_eq_true', List.isEmpty_eq_false_iff, List.all_eq_true] using
      List.all_eq_true.mp hletters _ hmem
  refine ⟨?_, fun c hc => isAlpha_of_upper (hall _ ?_)⟩
  · rintro rfl
    exact hne hword.symm
  · rw [← hword]
    exact List.mem_map_of_mem hc

/-! ## Gaps -/

theorem isWordByte_of_isDigit {c : UInt8} (h : isDigit c = true) : isWordByte c = true := by
  simp [isWordByte, h]

theorem Stops.digit {rest : Str} (h : Stops isWordByte rest) : Stops isDigit rest := by
  intro c tl hrest
  have hword := h c tl hrest
  cases hdigit : isDigit c with
  | false => rfl
  | true => rw [isWordByte_of_isDigit hdigit] at hword; cases hword

/-- A word stops at the end of the input, and before white space. -/
theorem stops_gap {gap rest : Str} (hgap : ∀ c ∈ gap, isSpace c = true) (hne : gap = [] → rest = []) :
    Stops isWordByte (gap ++ rest) := by
  intro c tl heq
  cases gap with
  | nil =>
    rw [hne rfl] at heq
    cases heq
  | cons d gap =>
    obtain ⟨rfl, -⟩ := List.cons.inj heq
    have hspace := hgap d List.mem_cons_self
    simp only [isWordByte, isAlpha, isDigit, isSpace] at *
    grind

/-! ## Tokens -/

/-- A token that can be written down is written with its text. -/
theorem Spelled.takes {t : Token} {rest : Str} (h : Spelled t) (hstop : Stops isWordByte rest) :
    Takes (some t) t.text rest := by
  cases h with
  | @keyword name type word hmem hword =>
    have htype : type ≠ .string := by
      have hnone : ∀ k ∈ keywords, k.2 ≠ .string := by decide
      exact hnone _ hmem
    obtain ⟨hne, hletters⟩ := letters_of_keyword hmem hword
    obtain ⟨c, cs, rfl⟩ := List.exists_cons_of_ne_nil hne
    have htakes : Takes (some ⟨keywordType (c :: cs), c :: cs⟩) (c :: cs) rest := by
      refine .word ?_ (fun d hd => ?_) hstop
      · simp [hletters c List.mem_cons_self]
      · simp [isWordByte, hletters d (List.mem_cons_of_mem _ hd)]
    rw [keywordType_of_keyword hmem hword] at htakes
    rwa [Token.text, if_neg htype]
  | identifier hc hcs hnot =>
    have htakes := Takes.word hc hcs hstop
    rwa [keywordType_of_not_keyword hnot] at htakes
  | number hne hdigits => exact .number hne hdigits hstop.digit
  | string hs => exact .closed hs
  | @symbol c type hmem =>
    have hsymbols : ∀ k ∈ symbols, symbolType k.1 = some k.2 ∧ k.2 ≠ .string := by decide
    obtain ⟨hsymbol, htype⟩ := hsymbols _ hmem
    rw [Token.text, if_neg htype]
    exact .symbol hsymbol

/-- White space in front of an input gives no lexeme. -/
theorem Written.spaces {gap rest : Str} {ls : List Lexeme} (hgap : ∀ c ∈ gap, isSpace c = true)
    (h : Written rest ls) : Written (gap ++ rest) ls := by
  induction gap with
  | nil => exact h
  | cons c gap ih =>
    exact .round (.space (hgap c List.mem_cons_self))
      (ih fun d hd => hgap d (List.mem_cons_of_mem _ hd))

/-- Tokens with gaps between them are written with themselves as lexemes. -/
theorem written_spaced : ∀ {ps : List (Token × Str)}, (∀ p ∈ ps, Spelled p.1) →
    (∀ p ∈ ps, ∀ c ∈ p.2, isSpace c = true) → (∀ p ∈ ps.dropLast, p.2 ≠ []) →
    Written (spaced ps) (ps.map fun p => ⟨p.1, p.1.text⟩)
  | [], _, _, _ => .nil
  | (t, gap) :: ps, hspelled, hspaces, hgaps => by
    have hgap := hspaces (t, gap) List.mem_cons_self
    -- Only behind the last token the gap may be empty, and there the input ends.
    have hlast : gap = [] → spaced ps = [] := by
      intro hnil
      cases ps with
      | nil => rfl
      | cons p ps => exact absurd hnil (hgaps (t, gap) List.mem_cons_self)
    have hrest : ∀ p ∈ ps.dropLast, p.2 ≠ [] := by
      intro p hp
      refine hgaps p ?_
      cases ps with
      | nil => cases hp
      | cons q ps => exact List.mem_cons_of_mem _ hp
    have hwritten := written_spaced (fun p hp => hspelled p (List.mem_cons_of_mem _ hp))
      (fun p hp => hspaces p (List.mem_cons_of_mem _ hp)) hrest
    have htakes := (hspelled (t, gap) List.mem_cons_self).takes (stops_gap hgap hlast)
    have hround := Written.round htakes (hwritten.spaces hgap)
    rw [← List.append_assoc] at hround
    exact hround

/-- Tokens written with white space between them, and any before and behind them, are read back with
their types and values, and the end marker behind them. -/
theorem handleInput_spaced {leading : Str} {ps : List (Token × Str)}
    (hleading : ∀ c ∈ leading, isSpace c = true) (hspelled : ∀ p ∈ ps, Spelled p.1)
    (hspaces : ∀ p ∈ ps, ∀ c ∈ p.2, isSpace c = true) (hgaps : ∀ p ∈ ps.dropLast, p.2 ≠ []) :
    handleInput (leading ++ spaced ps) = ps.map Prod.fst ++ [⟨.eof, []⟩] := by
  have hlexemes := written_iff.mp ((written_spaced hspelled hspaces hgaps).spaces hleading)
  rw [handleInput_eq, hlexemes, List.map_map]
  rfl

/-- A keyword in mixed case, a literal that looks like SQL, and a symbol at the end. -/
theorem handleInput_spaced_literal :
    handleInput (lit " SeLect\t'from * x'  _t1 42\n;") =
      [⟨.select, lit "SeLect"⟩, ⟨.string, lit "from * x"⟩, ⟨.identifier, lit "_t1"⟩,
        ⟨.number, lit "42"⟩, ⟨.semicolon, lit ";"⟩, ⟨.eof, []⟩] := by
  have hspelled : ∀ p ∈ [(⟨.select, lit "SeLect"⟩, lit "\t"), (⟨.string, lit "from * x"⟩, lit "  "),
      (⟨.identifier, lit "_t1"⟩, lit " "), (⟨.number, lit "42"⟩, lit "\n"),
      ((⟨.semicolon, lit ";"⟩ : Token), ([] : Str))], Spelled p.1 := by
    simp only [List.forall_mem_cons]
    refine ⟨?_, .string (by decide), ?_, ?_, ?_, ?_⟩
    · exact .keyword (show ("SELECT", TokenType.select) ∈ keywords by decide) (by decide +kernel)
    · exact .identifier (c := 95) (by decide) (by decide +kernel) (by decide +kernel)
    · exact .number (by decide) (by decide +kernel)
    · exact .symbol (c := 59) (by decide)
    · exact fun p hp => by cases hp
  have hleading : ∀ c ∈ lit " ", isSpace c = true := by decide +kernel
  exact handleInput_spaced hleading hspelled (by decide +kernel) (by decide)

end Lexer

end MiniDB
