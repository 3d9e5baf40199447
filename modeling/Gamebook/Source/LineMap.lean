/-!
# Where lines come from

A script may be put together from several files before it is compiled. A line map then names, for
every line of the whole, the file and the line it was taken from.
-/

namespace Gamebook

/-- The file and line each line of a text was taken from, in order. -/
structure LineMap where
  entries : List (String × Nat)
deriving DecidableEq

namespace LineMap

/-- The map of a text without lines. -/
def empty : LineMap := ⟨[]⟩

/-- Records where the next line was taken from. -/
def push (m : LineMap) (file : String) (line : Nat) : LineMap :=
  ⟨m.entries ++ [(file, line)]⟩

/-- Where a line, counted from one, was taken from. -/
def lookup (m : LineMap) : Nat → Option (String × Nat)
  | 0 => none
  | n + 1 => m.entries[n]?

@[simp] theorem lookup_zero (m : LineMap) : m.lookup 0 = none := rfl

@[simp] theorem lookup_succ (m : LineMap) (n : Nat) : m.lookup (n + 1) = m.entries[n]? := rfl

end LineMap

end Gamebook
