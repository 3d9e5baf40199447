/-!
# Positions in a script

A position is a line and a column, both counted from one. The characters of a text are placed one
after the other: a line feed opens the next line, so does a carriage return that no line feed
follows, a tabulator moves to the next tab stop, and every other character takes one column
(`Position.after`). `Mark.placed` gives every character of a text its position, and
`Position.afterAll` is the position behind the last one.
-/

namespace Gamebook

/-- A line and a column, both counted from one and without a limit. A character moves on by one line
or to the next tab stop at most, so 32 bits hold every position of a text of fewer than `2 ^ 30`
characters. -/
structure Position where
  line : Nat
  column : Nat
deriving DecidableEq

namespace Position

/-- The position of the first character of a text. -/
def first : Position := ⟨1, 1⟩

instance : Inhabited Position := ⟨first⟩

/-- The next column of the same line. -/
def advance (p : Position) : Position := { p with column := p.column + 1 }

/-- The column before this one, which is never less than one. -/
def back (p : Position) : Position := { p with column := max (p.column - 1) 1 }

/-- The first column of the next line. -/
def newline (p : Position) : Position := ⟨p.line + 1, 1⟩

/-- Distance between two tab stops. -/
def tabStop : Nat := 4

/-- The next tab stop of the same line. -/
def tab (p : Position) : Position :=
  { p with column := 1 + ((p.column - 1) / tabStop + 1) * tabStop }

/-- The position behind the character `c` that stands at `p` and before `next`. -/
def after (p : Position) (c : Char) (next : Option Char) : Position :=
  if c = '\n' then p.newline
  else if c = '\r' then if next = some '\n' then p.advance else p.newline
  else if c = '\t' then p.tab
  else p.advance

/-- The position behind the last of the characters that stand at `p` and after. -/
def afterAll (p : Position) : List Char → Position
  | [] => p
  | c :: cs => afterAll (p.after c cs.head?) cs

/-- `line:column`. -/
def render (p : Position) : String := s!"{p.line}:{p.column}"

/-! ## Order -/

/-- Positions are ordered by line, and within a line by column. -/
instance : LT Position := ⟨fun p q => p.line < q.line ∨ p.line = q.line ∧ p.column < q.column⟩

instance : LE Position := ⟨fun p q => p.line < q.line ∨ p.line = q.line ∧ p.column ≤ q.column⟩

theorem lt_iff {p q : Position} :
    p < q ↔ p.line < q.line ∨ p.line = q.line ∧ p.column < q.column := Iff.rfl

theorem le_iff {p q : Position} :
    p ≤ q ↔ p.line < q.line ∨ p.line = q.line ∧ p.column ≤ q.column := Iff.rfl

instance (p q : Position) : Decidable (p < q) := decidable_of_iff _ lt_iff.symm

instance (p q : Position) : Decidable (p ≤ q) := decidable_of_iff _ le_iff.symm

theorem lt_advance (p : Position) : p < p.advance :=
  .inr ⟨rfl, Nat.lt_succ_self _⟩

theorem lt_newline (p : Position) : p < p.newline := .inl (Nat.lt_succ_self _)

theorem lt_tab (p : Position) : p < p.tab := by
  refine .inr ⟨rfl, ?_⟩
  simp only [tab, tabStop]
  omega

/-- Whatever the character, what follows it stands further on. -/
theorem lt_after (p : Position) (c : Char) (next : Option Char) : p < p.after c next := by
  unfold after
  repeat' split
  all_goals first
    | exact p.lt_newline
    | exact p.lt_advance
    | exact p.lt_tab

end Position

/-- A character and the position it stands at. -/
structure Mark where
  char : Char
  spot : Position
deriving DecidableEq

/-- The characters of a text whose first one stands at `p`, each with its position. -/
def Mark.placed (p : Position) : List Char → List Mark
  | [] => []
  | c :: cs => ⟨c, p⟩ :: Mark.placed (p.after c cs.head?) cs

end Gamebook
