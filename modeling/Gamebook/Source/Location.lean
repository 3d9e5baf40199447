import Gamebook.Source.Document

/-!
# Locations

A location is a stretch of a document, from a first position up to and not including a last one.
`Located` attaches one to any value.
-/

namespace Gamebook

/-- The stretch of `document` from `start` up to, and not including, `stop`. -/
structure Location where
  document : Document
  start : Position
  stop : Position
deriving DecidableEq

namespace Location

/-- The single character at `p`. -/
def point (d : Document) (p : Position) : Location := ⟨d, p, p.advance⟩

/-- The location of what happens in no file. -/
def nowhere : Location := point .nowhere .first

instance : Inhabited Location := ⟨nowhere⟩

/-- From the start of `a` to the end of `b`. -/
def span (a b : Location) : Location := { a with stop := b.stop }

/-- File and line the start was taken from. -/
def origin (l : Location) : String × Nat := l.document.origin l.start.line

/-- `file:line:column`, or `file:[line:column-line:column]` for more than one character. A line
that was taken from elsewhere keeps its column, and only the start is shown. -/
def render (l : Location) : String :=
  let (file, line) := l.origin
  if line ≠ l.start.line then s!"{file}:{line}:{l.start.column}"
  else if l.stop = l.start.advance then s!"{file}:{l.start.render}"
  else s!"{file}:[{l.start.render}-{l.stop.back.render}]"

@[simp] theorem span_start (a b : Location) : (a.span b).start = a.start := rfl

@[simp] theorem span_stop (a b : Location) : (a.span b).stop = b.stop := rfl

@[simp] theorem span_document (a b : Location) : (a.span b).document = a.document := rfl

end Location

/-- A value and the stretch of text it stands for. -/
structure Located (α : Type) where
  value : α
  place : Location
deriving DecidableEq

/-- The same place with another value. -/
def Located.map {α β : Type} (f : α → β) (x : Located α) : Located β := ⟨f x.value, x.place⟩

end Gamebook
