import Gamebook.Source.Position
import Gamebook.Source.LineMap

/-!
# Documents

A document is a named text, with a line map if its lines were taken from other files. Its stored
lines end at a line feed, together with a carriage return right before it; `Document.lineAt` is
what a report quotes.
-/

namespace Gamebook

/-- A named text and, if it was put together from other files, where its lines come from. -/
structure Document where
  name : String
  text : String
  lineMap : Option LineMap := none
deriving DecidableEq

namespace Document

/-- The document of what happens in no file. -/
def nowhere : Document := ⟨"<input>", "", none⟩

/-- A line without the carriage return right before its end; `reversed` is the line backwards. -/
def dropReturn (reversed : List Char) : List Char :=
  match reversed with
  | '\r' :: rest => rest
  | line => line

/-- The lines of a text, where `reversed` is what was read of the current line, backwards. A text
that ends in a line feed has no empty line behind it. -/
def linesFrom (reversed : List Char) : List Char → List String
  | [] => if reversed.isEmpty then [] else [String.ofList reversed.reverse]
  | c :: cs =>
    if c = '\n' then String.ofList (dropReturn reversed).reverse :: linesFrom [] cs
    else linesFrom (c :: reversed) cs

/-- The lines of the document. -/
def lines (d : Document) : List String := linesFrom [] d.text.toList

/-- The line with this number, counted from one, or an empty one if there is none. -/
def lineAt (d : Document) (line : Nat) : String := (d.lines[line - 1]?).getD ""

/-- File and line that a line of the document was taken from. -/
def origin (d : Document) (line : Nat) : String × Nat :=
  (d.lineMap.bind (·.lookup line)).getD (d.name, line)

/-- The characters of the document with their positions. -/
def marks (d : Document) : List Mark := Mark.placed .first d.text.toList

/-- The position behind the last character of the document. -/
def finish (d : Document) : Position := Position.first.afterAll d.text.toList

end Document

end Gamebook
