import Gamebook.Text.Numeral
import Gamebook.Token.Basic

/-!
# Number literals

The digits of a number are summed up from the left, in a word of 64 bits. Once the sum is above
`maxNumber` it stays just there, so that the next digit never takes it beyond the word, and a flag
remembers that it did.
-/

namespace Gamebook

/-- A number whose digits were read up to some point: their value while it can be written, and
whether it has passed the greatest number that can. -/
structure Literal where
  value : UInt64
  overflow : Bool
deriving DecidableEq

namespace Literal

/-- No digits yet. -/
def zero : Literal := ⟨0, false⟩

/-- One more digit behind the ones read. -/
def push (base : Nat) (n : Literal) (digit : Nat) : Literal :=
  let value := n.value * base.toUInt64 + digit.toUInt64
  ⟨min value (maxNumber + 1).toUInt64, n.overflow || decide (maxNumber.toUInt64 < value)⟩

/-- The number that the digits write. -/
def ofDigits (base : Nat) (digits : List Nat) : Literal := digits.foldl (push base) zero

end Literal

end Gamebook
