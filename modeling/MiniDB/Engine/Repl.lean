import MiniDB.Engine.Database
import MiniDB.Parser.Totality

/-!
# The command loop

`MiniDB::execute` on the text of a statement and the loop of `main` over the standard input. The loop
reads a line with `std::getline` into a string that it keeps: at the end of the input the string stays
as it is, so that the bytes behind the last newline are read in every further turn, and the loop ends
only at a line that asks for it. Every session of the loop refines the database on the statements of
its lines.

## Main definitions

* `Stdin`, `Stdin.getline`: the standard input
* `Engine.executeText`, `Engine.line`: `MiniDB::execute` on a text, and what a turn does with its line
* `Repl`, `Repl.rounds`: the loop of `main`
* `inputAt`: the line of a turn
* `Database.line`: a line on the database

## Main results

* `Repl.rounds_eq`: the loop handles the lines of the input up to one that ends it
* `Repl.session_refines`: every session refines the database, and ends at such a line only
-/

namespace MiniDB

/-! ## Reading lines -/

/-- The byte that ends a line. -/
def newline : UInt8 := 10

/-- The standard input: the bytes that have not been read, and whether the stream is still good. -/
structure Stdin where
  bytes : Str
  good : Bool

/-- `std::getline` into a string: a stream that is not good leaves the string as it is. -/
def Stdin.getline (s : Stdin) (input : Str) : Str × Stdin :=
  if s.good then
    if newline ∈ s.bytes then
      (s.bytes.takeWhile (· ≠ newline), { s with bytes := (s.bytes.dropWhile (· ≠ newline)).tail })
    else (s.bytes, ⟨[], false⟩)
  else (input, s)

/-- The pieces of the input between its newlines. -/
def pieces (stdin : Str) : List Str := stdin.splitOnP fun c => c = newline

theorem pieces_ne_nil (stdin : Str) : pieces stdin ≠ [] := List.splitOnP_ne_nil _ stdin

/-- The line that the loop reads in its `k`-th turn: a piece of the input, and the last one when there
is no further one. -/
def inputAt (stdin : Str) (k : ℕ) : Str :=
  ((pieces stdin)[k]?).getD ((pieces stdin).getLast (pieces_ne_nil stdin))

theorem inputAt_mem (stdin : Str) (k : ℕ) : inputAt stdin k ∈ pieces stdin := by
  unfold inputAt
  cases hk : (pieces stdin)[k]? with
  | none => exact List.getLast_mem _
  | some line => exact List.mem_of_getElem? hk

/-- What is read from a stream in the turns from now on. -/
def Stdin.inputs (s : Stdin) (input : Str) : ℕ → Str :=
  if s.good then inputAt s.bytes else fun _ => input

theorem Stdin.getline_inputs (s : Stdin) (input : Str) :
    (s.getline input).1 = s.inputs input 0 ∧
    (s.getline input).2.inputs (s.getline input).1 = fun k => s.inputs input (k + 1) := by
  obtain ⟨bytes, good⟩ := s
  cases good with
  | false => exact ⟨rfl, rfl⟩
  | true =>
    by_cases hmem : newline ∈ bytes
    · obtain ⟨hrun, -, hsplit⟩ := Lexer.takeRun (fun c => c ≠ newline) bytes
      have hdrop : ∃ tl, bytes.dropWhile (· ≠ newline) = newline :: tl := by
        cases hd : bytes.dropWhile (· ≠ newline) with
        | nil =>
          rw [hd, List.append_nil] at hsplit
          rw [hsplit] at hmem
          exact absurd (hrun _ hmem) (by simp)
        | cons c tl =>
          have hhead := List.head?_dropWhile_not (fun c => decide (c ≠ newline)) bytes
          rw [hd] at hhead
          exact ⟨tl, by rw [show c = newline by simpa using hhead]⟩
      obtain ⟨tl, hdrop⟩ := hdrop
      have hpieces : pieces bytes = bytes.takeWhile (· ≠ newline) :: pieces tl := by
        rw [hdrop] at hsplit
        conv_lhs => rw [hsplit]
        refine List.splitOnP_append_cons_of_forall_mem (fun c hc => ?_) newline (by simp) tl
        simpa using hrun c hc
      have hline : Stdin.getline ⟨bytes, true⟩ input = (bytes.takeWhile (· ≠ newline), ⟨tl, true⟩) := by
        simp only [getline, hmem, if_true, hdrop, List.tail_cons]
      rw [hline]
      refine ⟨?_, funext fun k => ?_⟩
      · simp only [inputs, if_true, inputAt, hpieces, List.getElem?_cons_zero, Option.getD_some]
      · simp only [inputs, if_true, inputAt, hpieces, List.getElem?_cons_succ]
        rw [List.getLast_cons (pieces_ne_nil tl)]
    · have hpieces : pieces bytes = [bytes] :=
        List.splitOnP_eq_singleton fun c hc => decide_eq_false fun he => hmem (he ▸ hc)
      have hline : Stdin.getline ⟨bytes, true⟩ input = (bytes, ⟨[], false⟩) := by
        simp only [getline, hmem, if_true, if_false]
      rw [hline]
      refine ⟨?_, funext fun k => ?_⟩ <;> simp [inputs, inputAt, hpieces]

/-! ## A line -/

/-- The lines that end the loop. -/
def IsExit (line : Str) : Prop := line = lit ".exit" ∨ line = lit "quit" ∨ line = lit "exit"

instance (line : Str) : Decidable (IsExit line) :=
  inferInstanceAs (Decidable (_ ∨ _ ∨ _))

/-- What a turn of the loop does. -/
inductive Turn
  | goodbye
  | nothing
  | help
  | ran (reply : Reply)
deriving DecidableEq

namespace Engine

/-- The statement of a text, or what the parser throws. -/
def parseText (sql : Str) : Except Fault (Except Str Statement) :=
  match Parser.parse (Lexer.handleInput sql) with
  | .ok (stmt, _) => .ok (.ok stmt)
  | .error (.runtimeError what) => .ok (.error what)
  | .error .outOfRange => .error .overrun
  | .error .fuel => .error .fuel

/-- `MiniDB::execute`. -/
def executeText (sql : Str) : Program Engine Fault Reply := do
  match ← Program.lift (parseText sql) with
  | .ok stmt => execute stmt
  | .error what => return .error (lit "Parse Error: " ++ what)

/-- A turn of the loop of `main` with its line. -/
def line (db : Engine) (input : Str) : Except Fault (Engine × Turn) :=
  if IsExit input then .ok (db, .goodbye)
  else if input = [] then .ok (db, .nothing)
  else if input = lit ".help" then .ok (db, .help)
  else
    match (executeText input).run db with
    | (.ok reply, db) => .ok (db, .ran reply)
    | (.error e, _) => .error e

end Engine

/-! ## Lines on the database -/

/-- What a turn does, by the answer of its statement. -/
inductive Outcome
  | goodbye
  | nothing
  | help
  | answered (answer : Answer)
deriving DecidableEq

/-- The outcome of a turn: the texts do not count. -/
def Turn.outcome : Turn → Outcome
  | .goodbye => .goodbye
  | .nothing => .nothing
  | .help => .help
  | .ran reply => .answered reply.answer

namespace Database

/-- A line on the database. -/
def line (D : Database) (input : Str) : Database × Outcome :=
  if IsExit input then (D, .goodbye)
  else if input = [] then (D, .nothing)
  else if input = lit ".help" then (D, .help)
  else
    match Parser.parse (Lexer.handleInput input) with
    | .ok (stmt, _) => ((D.exec stmt).1, .answered (D.exec stmt).2)
    | .error _ => (D, .answered .rejected)

/-- If the line is a statement that inserts a row, its bytes fit a page. -/
def StorableLine (D : Database) (input : Str) : Prop :=
  match Parser.parse (Lexer.handleInput input) with
  | .ok (stmt, _) => D.StorableRow stmt
  | .error _ => True

instance (D : Database) (input : Str) : Decidable (D.StorableLine input) := by
  unfold StorableLine
  split <;> infer_instance

end Database

namespace Engine

/-- The parser returns or throws, on every text. -/
theorem parseText_cases (sql : Str) :
    (∃ stmt rest, Parser.parse (Lexer.handleInput sql) = .ok (stmt, rest) ∧
      parseText sql = .ok (.ok stmt)) ∨
    ∃ what, Parser.parse (Lexer.handleInput sql) = .error (.runtimeError what) ∧
      parseText sql = .ok (.error what) := by
  obtain ⟨ts, hts, -⟩ := Lexer.handleInput_marked sql
  have hstream : Parser.Stream (Lexer.handleInput sql).length (Lexer.handleInput sql) :=
    ⟨⟨ts, _, hts, rfl⟩, Nat.le_refl _⟩
  have hends := Parser.ends_parse hstream
  unfold parseText
  cases hparse : Parser.parse (Lexer.handleInput sql) with
  | ok r => exact Or.inl ⟨r.1, r.2, rfl, rfl⟩
  | error e =>
    rw [hparse] at hends
    obtain ⟨what, rfl⟩ := hends
    exact Or.inr ⟨what, rfl, rfl⟩

/-- Every line refines the line on the database. -/
theorem line_refines : Machine.Refines Database.StorableLine line Database.line Represents
    (fun turn outcome => turn.outcome = outcome) Excused := by
  intro db D input h hfits
  unfold line Database.line
  split
  case isTrue => exact Or.inr ⟨db, _, rfl, h, rfl⟩
  split
  case isTrue => exact Or.inr ⟨db, _, rfl, h, rfl⟩
  split
  case isTrue => exact Or.inr ⟨db, _, rfl, h, rfl⟩
  rcases parseText_cases input with ⟨stmt, rest, hparse, htext⟩ | ⟨what, hparse, htext⟩
  · have hrun : (executeText input).run db = (execute stmt).run db := by
      rw [executeText, Program.run_bind_ok (Program.run_lift_eq_ok.mpr ⟨htext, rfl⟩)]
    rw [Database.StorableLine, hparse] at hfits
    have hstep := represents_refines db D stmt h hfits
    rw [hrun, hparse]
    unfold step at hstep
    rcases hexec : (execute stmt).run db with ⟨e | reply, db'⟩
    · rw [hexec] at hstep
      rcases hstep with ⟨e', he', herror⟩ | ⟨_, _, hok, -⟩
      · obtain rfl := Except.error.inj herror
        exact Or.inl ⟨e, he', rfl⟩
      · cases hok
    · rw [hexec] at hstep
      rcases hstep with ⟨_, -, herror⟩ | ⟨_, _, hok, h', hanswer⟩
      · cases herror
      · obtain ⟨rfl, rfl⟩ := Prod.mk.inj (Except.ok.inj hok)
        exact Or.inr ⟨db', _, rfl, h', congrArg Outcome.answered hanswer⟩
  · have hrun : (executeText input).run db = (.ok (.error (lit "Parse Error: " ++ what)), db) := by
      rw [executeText, Program.run_bind_ok (Program.run_lift_eq_ok.mpr ⟨htext, rfl⟩)]
      rfl
    rw [hrun, hparse]
    exact Or.inr ⟨db, _, rfl, h, rfl⟩

end Engine

/-! ## The loop -/

/-- The local state of `main`. -/
structure Repl where
  db : Engine
  stdin : Stdin
  input : Str

namespace Repl

/-- `main` before its loop. -/
def start (disk : Str → Option File) (logMgr : LogManager) (stdin : Str) : Repl :=
  ⟨Engine.new disk logMgr, ⟨stdin, true⟩, []⟩

/-- A turn of the loop. -/
def turn (r : Repl) : Except Fault (Repl × Turn) := do
  let (input, stdin) := r.stdin.getline r.input
  let (db, turn) ← r.db.line input
  return (⟨db, stdin, input⟩, turn)

/-- The loop of `main` for at most `n` turns: it breaks at the first one that says goodbye. -/
def rounds : ℕ → Repl → Except Fault (Repl × List Turn)
  | 0, r => .ok (r, [])
  | n + 1, r => do
    let (r, turn) ← r.turn
    if turn = .goodbye then return (r, [turn])
    else
      let (r, turns) ← rounds n r
      return (r, turn :: turns)

/-- The first `n` lines, up to one that ends the loop. -/
def heard : ℕ → (ℕ → Str) → List Str
  | 0, _ => []
  | n + 1, inputs => inputs 0 :: if IsExit (inputs 0) then [] else heard n fun k => inputs (k + 1)

theorem line_goodbye {db db' : Engine} {input : Str} {turn : Turn}
    (h : db.line input = .ok (db', turn)) : turn = .goodbye ↔ IsExit input := by
  unfold Engine.line at h
  split at h
  case isTrue hexit => simp [hexit, ← (Prod.mk.inj (Except.ok.inj h)).2]
  case isFalse hexit =>
    refine iff_of_false ?_ hexit
    rintro rfl
    split at h
    · cases h
    · split at h
      · cases h
      · split at h <;> cases h

/-- The loop says goodbye at a line that ends it. -/
theorem goodbye_mem_iff {lines : List Str} {db db' : Engine} {turns : List Turn}
    (h : Machine.run Engine.line db lines = .ok (db', turns)) :
    .goodbye ∈ turns ↔ ∃ line ∈ lines, IsExit line := by
  induction lines generalizing db turns with
  | nil =>
    obtain ⟨-, rfl⟩ := Prod.mk.inj (Except.ok.inj h)
    simp
  | cons input lines ih =>
    obtain ⟨db₁, turn, turns', hstep, hrest, rfl⟩ := Machine.run_cons_inv h
    rw [List.mem_cons, ih hrest, eq_comm, line_goodbye hstep]
    simp only [List.mem_cons, exists_eq_or_imp]

theorem turn_of_line {r : Repl} {x : Except Fault (Engine × Turn)}
    (h : r.db.line (r.stdin.getline r.input).1 = x) : r.turn =
      x.map fun e => (⟨e.1, (r.stdin.getline r.input).2, (r.stdin.getline r.input).1⟩, e.2) := by
  show (r.db.line (r.stdin.getline r.input).1 >>= _) = _
  rw [h]
  cases x <;> rfl

/-- The loop handles the lines it reads, up to one that ends it. -/
theorem rounds_eq (n : ℕ) (r : Repl) :
    (rounds n r).map (fun e => (e.1.db, e.2)) =
      Machine.run Engine.line r.db (heard n (r.stdin.inputs r.input)) := by
  induction n generalizing r with
  | zero => rfl
  | succ n ih =>
    obtain ⟨hline, hrest⟩ := r.stdin.getline_inputs r.input
    unfold rounds heard
    rw [← hline, ← hrest]
    cases hstep : r.db.line (r.stdin.getline r.input).1 with
    | error e =>
      rw [Machine.run_cons_error hstep, turn_of_line hstep]
      rfl
    | ok res =>
      obtain ⟨db, turn⟩ := res
      rw [Machine.run_cons_ok hstep, turn_of_line hstep]
      simp only [Except.map, Machine.ok_bind, Machine.pure_eq_ok]
      by_cases hexit : IsExit (r.stdin.getline r.input).1
      · rw [if_pos ((line_goodbye hstep).mpr hexit), if_pos hexit]
        rfl
      · rw [if_neg fun he => hexit ((line_goodbye hstep).mp he), if_neg hexit]
        rw [← ih ⟨db, (r.stdin.getline r.input).2, (r.stdin.getline r.input).1⟩]
        cases rounds n ⟨db, (r.stdin.getline r.input).2, (r.stdin.getline r.input).1⟩ <;> rfl

theorem mem_heard_exit (n : ℕ) (inputs : ℕ → Str) :
    (∃ line ∈ heard n inputs, IsExit line) ↔ ∃ k < n, IsExit (inputs k) := by
  induction n generalizing inputs with
  | zero => simp [heard]
  | succ n ih =>
    unfold heard
    by_cases hexit : IsExit (inputs 0)
    · exact iff_of_true ⟨inputs 0, List.mem_cons_self, hexit⟩ ⟨0, n.succ_pos, hexit⟩
    · rw [if_neg hexit]
      simp only [List.mem_cons, exists_eq_or_imp, hexit, false_or, ih]
      constructor
      · rintro ⟨k, hk, h⟩
        exact ⟨k + 1, Nat.succ_lt_succ hk, h⟩
      · rintro ⟨_ | k, hk, h⟩
        · exact absurd h hexit
        · exact ⟨k, Nat.lt_of_succ_lt_succ hk, h⟩

/-- In every session of the loop whose inserted rows fit a page, in which no disk operation fails and
every call of a B+ tree returns, the first `n` turns do what the lines of the input do on the
database, up to one that ends the loop. The loop says goodbye only at such a line: an input without
one keeps it turning, and what stands behind the last newline is read in every further turn. -/
theorem session_refines (disk : Str → Option File) (logMgr : LogManager) (stdin : Str) (n : ℕ)
    (hfits : Machine.Along Database.StorableLine Database.line (fun _ => none)
      (heard n (inputAt stdin)))
    (hio : rounds n (start disk logMgr stdin) ≠ .error .io)
    (hindex : rounds n (start disk logMgr stdin) ≠ .error .index) :
    (∃ r turns, rounds n (start disk logMgr stdin) = .ok (r, turns) ∧
      turns.map Turn.outcome =
        (Machine.specRun Database.line (fun _ => none) (heard n (inputAt stdin))).2 ∧
      Engine.Represents r.db
        (Machine.specRun Database.line (fun _ => none) (heard n (inputAt stdin))).1 ∧
      (.goodbye ∈ turns ↔ ∃ k < n, IsExit (inputAt stdin k))) ∧
    ((∃ k, IsExit (inputAt stdin k)) ↔ ∃ line ∈ pieces stdin, IsExit line) := by
  refine ⟨?_, ?_⟩
  · have hloop := rounds_eq n (start disk logMgr stdin)
    have hinputs : (start disk logMgr stdin).stdin.inputs (start disk logMgr stdin).input =
        inputAt stdin := rfl
    rw [hinputs] at hloop
    rcases Machine.run_refines Engine.line_refines _ _ _ (Engine.represents_new disk logMgr)
      hfits with ⟨e, he, hrun⟩ | ⟨db, turns, hrun, hrep, hanswers⟩
    · rw [show (start disk logMgr stdin).db = Engine.new disk logMgr from rfl, hrun] at hloop
      cases hrounds : rounds n (start disk logMgr stdin) with
      | ok res =>
        rw [hrounds] at hloop
        cases hloop
      | error e' =>
        rw [hrounds] at hloop hio hindex
        obtain rfl := Except.error.inj hloop
        rcases he with rfl | rfl
        · exact absurd rfl hio
        · exact absurd rfl hindex
    · rw [show (start disk logMgr stdin).db = Engine.new disk logMgr from rfl, hrun] at hloop
      obtain ⟨⟨r, turns'⟩, hrounds, he⟩ := Machine.map_eq_ok.mp hloop
      obtain ⟨rfl, rfl⟩ := Prod.mk.inj he
      refine ⟨r, turns', hrounds, ?_, hrep, ?_⟩
      · rw [← List.forall₂_eq_eq_eq, List.forall₂_map_left_iff]
        exact hanswers
      · rw [goodbye_mem_iff hrun, mem_heard_exit]
  · constructor
    · rintro ⟨k, hk⟩
      exact ⟨_, inputAt_mem stdin k, hk⟩
    · rintro ⟨line, hline, hexit⟩
      obtain ⟨k, hk⟩ := List.mem_iff_getElem?.mp hline
      exact ⟨k, by rwa [inputAt, hk]⟩

/-- A session whose last line has no newline behind it: its insertion comes again in every turn. -/
theorem session_refines_no_newline :
    let stdin := lit "CREATE TABLE t (id INT);\n\nBOGUS\nINSERT INTO t VALUES (7)"
    ∃ r turns, rounds 6 (start (fun _ => none) ⟨[], [], 1⟩ stdin) = .ok (r, turns) ∧
      turns.map Turn.outcome = [.answered (.created 1), .nothing, .answered .rejected,
        .answered .inserted, .answered .inserted, .answered .inserted] := by
  intro stdin
  obtain ⟨r, turns, hrun, houtcomes, -⟩ := (session_refines (fun _ => none) ⟨[], [], 1⟩ stdin 6
    (by decide +kernel) (Machine.ne_error_of_isOk (by decide +kernel) _)
    (Machine.ne_error_of_isOk (by decide +kernel) _)).1
  exact ⟨r, turns, hrun, houtcomes.trans (by decide +kernel)⟩

end Repl

end MiniDB
