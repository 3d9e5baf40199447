/-!
# Log

What the compiler notes while it works. Every part returns its notes with its result; whoever calls
it decides which of them to show.
-/

namespace Gamebook

namespace Log

/-- How important a note is. -/
inductive Level where
  | warn
  | info
  | debug
deriving DecidableEq

namespace Level

/-- The name of the level. -/
def name : Level → String
  | warn => "WARN"
  | info => "INFO"
  | debug => "DEBUG"

/-- The higher, the less important. -/
def rank : Level → Nat
  | warn => 1
  | info => 2
  | debug => 3

end Level

/-- The part of the compiler that made a note. -/
inductive Part where
  | grammar
  | fusion
  | memory
  | placement
  | command
deriving DecidableEq

/-- One note. -/
structure Note where
  level : Level
  part : Part
  text : String
deriving DecidableEq

end Log

/-- Notes, the oldest first. -/
abbrev Log := List Log.Note

/-- The notes up to a level. -/
def Log.upTo (rank : Nat) (log : Log) : Log := log.filter (·.level.rank ≤ rank)

end Gamebook
