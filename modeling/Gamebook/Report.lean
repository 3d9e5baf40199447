import Gamebook.Grammar.Problem
import Gamebook.Text.Numeral

/-!
# Reports

A report keeps the first problems of a script up to a limit, and says whether the limit was
reached. `Report.render` shows each with the lines it lies on and marks below them.
-/

namespace Gamebook

/-- Problems in the order in which they were found. -/
structure Report where
  /-- What the problems are called. -/
  kind : String := "error"
  /-- How many are kept. -/
  limit : Nat := 20
  problems : List (Located Problem) := []
  /-- Whether as many were found as are kept, or more. -/
  limitReached : Bool := false

namespace Report

/-- How many problems are kept unless something else is asked for. -/
def defaultLimit : Nat := 20

/-- A report of at least one problem. -/
def withLimit (limit : Nat) : Report := { limit := max limit 1 }

/-- Adds a problem, or drops it if there is no room. -/
def push (r : Report) (p : Located Problem) : Report :=
  if r.limit ≤ r.problems.length then { r with limitReached := true }
  else
    { r with
      problems := r.problems ++ [p]
      limitReached := r.limitReached || r.problems.length + 1 == r.limit }

/-- The report of these problems. -/
def ofProblems (limit : Nat) (problems : List (Located Problem)) : Report :=
  problems.foldl push (withLimit limit)

/-- The wordings alone. -/
def messages (r : Report) : List String := r.problems.map (·.value.message)

/-- One line for each problem, as a list of quoted texts. -/
def brief (r : Report) : String :=
  "[" ++ ", ".intercalate (r.problems.map fun p =>
    Text.quote (p.place.render ++ ": " ++ p.value.message)) ++ "]"

/-- A problem with the lines it lies on. The marks below them go from the first column to the last,
whichever comes first. -/
def renderProblem (kind : String) (p : Located Problem) : List String :=
  let place := p.place
  let digits := (toString place.stop.line).length
  let margin := Text.padLeft digits ' ' ""
  let numbers := List.range' place.start.line (place.stop.line + 1 - place.start.line)
  let quoted := numbers.map fun n =>
    Text.padLeft digits ' ' (toString n) ++ " | " ++ place.document.lineAt n
  let first := min place.start.column (max place.stop.column 2 - 1)
  let last := max place.start.column (max place.stop.column 2 - 1)
  let marks := String.ofList (List.replicate (first - 1) ' ') ++
    String.ofList (List.replicate (last - first + 1) '^')
  [kind ++ ": " ++ p.value.message, " --> " ++ place.render, margin ++ " |"] ++ quoted ++
    [margin ++ " | " ++ marks, ""]

/-- The lines of the report. -/
def lines (r : Report) : List String :=
  if r.problems.isEmpty then ["No errors were reported"]
  else
    let count := r.problems.length
    r.problems.flatMap (renderProblem r.kind) ++
      (if r.limitReached then ["Too many errors, stopped reporting"] else []) ++
      ["Build failed with " ++ toString count ++ (if count = 1 then " error" else " errors")]

/-- The report as text. -/
def render (r : Report) : String := String.join (r.lines.map (· ++ "\n"))

end Report

end Gamebook
