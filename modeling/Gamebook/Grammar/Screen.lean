/-!
# The screen

Places and areas of the screen, cut down to what there is of it.
-/

namespace Gamebook.Screen

/-- How many columns there are. -/
def columns : UInt16 := 32

/-- How many rows there are. -/
def rows : UInt16 := 24

/-- How many options a menu can have. -/
def maxOptions : UInt16 := 32

/-- The column, or the last one. -/
def column (c : UInt16) : UInt16 := min c (columns - 1)

/-- The row, or the last one. -/
def row (r : UInt16) : UInt16 := min r (rows - 1)

/-- A part of the screen. -/
structure Area where
  column : UInt16
  row : UInt16
  width : UInt16
  height : UInt16
deriving DecidableEq

namespace Area

/-- The numbers of the area in the order in which they are written. -/
def toList (a : Area) : List UInt16 := [a.column, a.row, a.width, a.height]

/-- The part of the area that lies on the screen. -/
def clamp (a : Area) : Area :=
  let c := Screen.column a.column
  let r := Screen.row a.row
  ⟨c, r, min a.width (columns - c), min a.height (rows - r)⟩

/-- The text of the area. -/
def render (a : Area) : String :=
  "[" ++ ", ".intercalate (a.toList.map fun n => toString n.toNat) ++ "]"

end Area

end Gamebook.Screen
