import Mathlib.Order.Defs.LinearOrder
import Gamebook.Source.Document

/-!
# The positions of characters

Positions are in order: by line, and within a line by column. Along a text they go up, and not only
that: the column behind a character is never behind the next one (`placed_apart`). Most characters
leave nothing between, but behind a tabulator or a line end there are columns without a character.

The line of a character is one more than the number of line ends before it (`line_of_placed`). A
line end is a line feed, with the carriage return before it if there is one, or a carriage return on
its own; `endsLine` says with which character it is complete.
-/

namespace Gamebook

namespace Position

instance : LinearOrder Position where
  le_refl p := .inr ⟨rfl, Nat.le_refl _⟩
  le_trans p q r h h' := by
    rw [le_iff] at *
    omega
  lt_iff_le_not_ge p q := by
    rw [lt_iff, le_iff, le_iff]
    omega
  le_antisymm p q h h' := by
    rw [le_iff] at h h'
    obtain ⟨line, column⟩ := p
    obtain ⟨line', column'⟩ := q
    simp only [mk.injEq] at *
    omega
  le_total p q := by
    rw [le_iff, le_iff]
    omega
  toDecidableLE := inferInstance
  toDecidableLT := inferInstance

/-- Whatever the character, what follows it does not stand in the same column or before. -/
theorem advance_le_after (p : Position) (c : Char) (next : Option Char) :
    p.advance ≤ p.after c next := by
  have tab : p.advance ≤ p.tab := by
    refine .inr ⟨rfl, ?_⟩
    simp only [advance, Position.tab, tabStop]
    omega
  have newline : p.advance ≤ p.newline := .inl (Nat.lt_succ_self _)
  unfold after
  repeat' split
  all_goals first
    | exact newline
    | exact le_refl _
    | exact tab

end Position

/-! ## Order -/

namespace Mark

theorem le_of_mem_placed {p : Position} {cs : List Char} {m : Mark} (h : m ∈ placed p cs) :
    p ≤ m.spot := by
  induction cs generalizing p with
  | nil => contradiction
  | cons c cs ih =>
    rcases List.mem_cons.mp h with rfl | h
    · exact le_refl _
    · exact le_trans (le_of_lt (p.lt_after c cs.head?)) (ih h)

/-- The first character does not reach to the second. -/
def Before (m n : Mark) : Prop := m.spot.advance ≤ n.spot

theorem Before.lt {m n : Mark} (h : m.Before n) : m.spot < n.spot :=
  lt_of_lt_of_le m.spot.lt_advance h

theorem placed_apart (p : Position) (cs : List Char) : (placed p cs).Pairwise Before := by
  induction cs generalizing p with
  | nil => exact .nil
  | cons c cs ih =>
    refine .cons (fun m mem => ?_) (ih _)
    exact le_trans (p.advance_le_after c cs.head?) (le_of_mem_placed mem)

theorem char_placed {p : Position} {cs : List Char} {i : Nat} :
    (placed p cs)[i]?.map (·.char) = cs[i]? := by
  induction cs generalizing p i with
  | nil => rfl
  | cons c cs ih =>
    cases i with
    | zero => rfl
    | succ i => exact ih

end Mark

/-! ## Lines -/

/-- Whether a line end is complete with the character with number `i`: it is a line feed, or a
carriage return that no line feed follows. -/
def endsLine (cs : List Char) (i : Nat) : Bool :=
  cs[i]? = some '\n' || (cs[i]? = some '\r' && cs[i + 1]? ≠ some '\n')

/-- How many line ends are complete before the character with number `i`. -/
def lineEndsBefore (cs : List Char) (i : Nat) : Nat := (List.range i).countP (endsLine cs)

theorem lineEndsBefore_cons (c : Char) (cs : List Char) (i : Nat) :
    lineEndsBefore (c :: cs) (i + 1) =
      lineEndsBefore cs i + if endsLine (c :: cs) 0 then 1 else 0 := by
  have later : endsLine (c :: cs) ∘ Nat.succ = endsLine cs := funext fun j => by simp [endsLine]
  rw [lineEndsBefore, List.range_succ_eq_map, List.countP_cons, List.countP_map, later]
  rfl

theorem Position.line_after (p : Position) (c : Char) (cs : List Char) :
    (p.after c cs.head?).line = p.line + if endsLine (c :: cs) 0 then 1 else 0 := by
  have next : (c :: cs)[0 + 1]? = cs.head? := by cases cs <;> rfl
  unfold after endsLine
  rw [next, List.getElem?_cons_zero]
  by_cases feed : c = '\n'
  · simp [feed, newline]
  · by_cases ret : c = '\r'
    · by_cases both : cs.head? = some '\n' <;> simp [ret, both, advance, newline]
    · by_cases blank : c = '\t' <;> simp [feed, ret, blank, advance, tab]

/-- The line of a character is told by the line ends before it. -/
theorem Mark.line_of_placed {p : Position} {cs : List Char} {i : Nat} {m : Mark}
    (h : (placed p cs)[i]? = some m) : m.spot.line = p.line + lineEndsBefore cs i := by
  induction cs generalizing p i with
  | nil => simp [placed] at h
  | cons c cs ih =>
    cases i with
    | zero =>
      obtain rfl := Option.some.inj h
      rfl
    | succ i =>
      rw [ih h, p.line_after, lineEndsBefore_cons]
      omega

end Gamebook
