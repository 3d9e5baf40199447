import Gamebook.Grammar.Statement
import Gamebook.Report

/-!
# Programs

A block is a sequence of statements and prose up to a word that ends it. The statements of one line
should have colons between them; a colon that is missing is always noticed, but only a strict
reading counts it as a problem.

`read` reads all tokens of a script. Whatever it finds wrong it notes and goes on, so the list of
problems is complete; `Reading.accept` then says whether there is a program, and otherwise reports
as many of the problems as were asked for. No parser looks at the problems, so a report that is
filled on the way, and has no room for more from some point on, would come out the same.
-/

namespace Gamebook.Grammar

namespace Parser

/-- Statements up to a word that ends the block, at most `fuel` of them. The end of another block
is a problem inside a block, and ends the outermost one, for which `ends` is empty. -/
def block : Nat → List Keyword → Bool → Parser Unit
  | 0, _, _ => return ()
  | fuel + 1, ends, needsColon => do
    match ← peekLocated with
    | none => return ()
    | some t =>
      match t.value, blockEnd? t.value with
      | .colon, _ | .lineBreak, _ | .openCode, _ | .closeCode, _ => do
        let _ ← advance
        block fuel ends false
      | .text bytes, _ => do
        let _ ← advance
        emit [.text bytes]
        block fuel ends false
      | _, some k =>
        if ends.isEmpty || ends.contains k then return ()
        else do
          let _ ← advance
          report (.unmatchedEnd k) t.place
          block fuel ends needsColon
      | token, none => do
        if needsColon then report .missingColon t.place
        attempt (statement fun inner => block fuel inner false)
        block fuel ends (match token with | .shortLabel _ => false | _ => true)

/-- Blocks up to the end of the script, with a problem for every end of a block between them. -/
def programFor : Nat → Parser Unit
  | 0 => return ()
  | fuel + 1 => do
    block (← left) [] false
    match ← advance with
    | none => return ()
    | some t => do
      match t.value with
      | .keyword k => report (.unmatchedEnd k) t.place
      | _ => pure ()
      programFor fuel

/-- A whole script. -/
def program : Parser Unit := do programFor ((← left) + 1)

end Parser

/-- A program as instructions and names. -/
structure Program where
  code : List Instruction
  symbols : Symbol.Table

/-- What reading a whole script gives. -/
structure Reading where
  program : Program
  /-- Everything found wrong, colons that are missing included. -/
  problems : List (Located Problem)
  notes : Log

/-- Before the first token. -/
def State.start (tokens : List Lexeme) : State :=
  { pending := tokens
    lastSeen := .nowhere
    problems := []
    symbols := .empty
    code := []
    hiddenLabels := 0
    notes := [] }

/-- What was read, once the end of the script is reached. -/
def Reading.ofState (s : State) : Reading :=
  let summary := "parsed " ++ toString s.code.length ++ " instructions, " ++
    toString s.symbols.size ++ " symbols, " ++ toString s.hiddenLabels ++ " hidden labels"
  { program := ⟨s.code, s.symbols⟩
    problems := s.problems ++ s.symbols.finish.map (·.map .name)
    notes := s.notes ++ [⟨.debug, .grammar, summary⟩] }

/-- Reads all tokens of a script, unless a constant has no value. -/
def read (tokens : List Lexeme) : Option Reading :=
  match Parser.program (State.start tokens) with
  | .done _ s | .failed _ s => some (.ofState s)
  | .overflowed => none

/-- How a reading is judged. -/
structure Options where
  /-- Whether a missing colon is a problem. -/
  strictColons : Bool := false
  /-- How many problems are reported. -/
  maxErrors : Nat := Report.defaultLimit

/-- Whether a problem counts. -/
def Options.counts (o : Options) (p : Located Problem) : Bool :=
  o.strictColons || p.value ≠ .grammar .missingColon

/-- The program, or a report of what is wrong with it. -/
def Reading.accept (o : Options) (r : Reading) : Except Report Program :=
  let problems := r.problems.filter o.counts
  if problems.isEmpty then .ok r.program else .error (.ofProblems o.maxErrors problems)

end Gamebook.Grammar
