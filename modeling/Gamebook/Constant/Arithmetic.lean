/-!
# Arithmetic of constants

Constants are 64-bit words with a sign. Sums, differences and products stop at the least and the
greatest word; a quotient is cut toward zero; a shift moves by 0 to 63 places, to the left losing
what leaves the word, to the right keeping the sign; the complement is that of a byte. The one
quotient that no word can hold, of the least word by minus one, has no value at all
(`EvalError.quotientOverflow`).
-/

namespace Gamebook.Constant

/-- The size a constant has to fit in. -/
inductive Width where
  | byte
  | word
deriving DecidableEq

/-- What goes wrong when a constant is computed. -/
inductive EvalError where
  /-- An operator with too few values before it, or no value at all. -/
  | underflow
  /-- More than one value is left. -/
  | leftover (count : Nat)
  | divisionByZero
  | invalidShift (amount : Int64)
  | undefined (name : String)
  | outOfRange (value : Int64) (width : Width)
  /-- The least word divided by minus one. -/
  | quotientOverflow
deriving DecidableEq

namespace Width

/-- The greatest value that fits. -/
def max : Width → Int
  | byte => 0xFF
  | word => 0xFFFF

/-- The size in words. -/
def describe : Width → String
  | byte => "byte (0-255)"
  | word => "word (0-65535)"

/-- The value, if it fits. -/
def check (w : Width) (value : Int64) : Except EvalError UInt16 :=
  if 0 ≤ value.toInt ∧ value.toInt ≤ w.max then .ok value.toInt.toNat.toUInt16
  else .error (.outOfRange value w)

end Width

/-- The wording of the error. -/
def EvalError.message : EvalError → String
  | underflow => "Constant expression stack underflow"
  | leftover count =>
    "Malformed constant expression, " ++ toString count ++ " values left on stack"
  | divisionByZero => "Division by zero in constant expression"
  | invalidShift amount => "Invalid shift amount " ++ toString amount.toInt
  | undefined name => "Constant `" ++ name ++ "` is not declared"
  | outOfRange value width =>
    "Value " ++ toString value.toInt ++ " does not fit in a " ++ width.describe
  | quotientOverflow => "Quotient overflow in constant expression"

/-- An operator of constant expressions. -/
inductive Operator where
  | add | sub | mul | div | and | or | shiftLeft | shiftRight | not
deriving DecidableEq

namespace Operator

/-- How many values the operator takes. -/
def arity : Operator → Nat
  | .not => 1
  | _ => 2

/-- The sign the operator is written with. -/
def sign : Operator → String
  | add => "+"
  | sub => "-"
  | mul => "*"
  | div => "/"
  | .and => "&"
  | .or => "|"
  | shiftLeft => "<<"
  | shiftRight => ">>"
  | .not => "~"

end Operator

/-- The word nearest to an integer. -/
def saturate (n : Int) : Int64 :=
  if n < Int64.minValue.toInt then .minValue
  else if Int64.maxValue.toInt < n then .maxValue
  else .ofInt n

/-- The complement of the low byte. -/
def complement (v : Int64) : Int64 := ~~~v &&& 0xFF

/-- Whether a word is moved by that many places. -/
def isShift (amount : Int64) : Bool := 0 ≤ amount.toInt && amount.toInt < 64

/-- The value of an operator with two operands; the complement looks at the second one. -/
def Operator.apply (op : Operator) (lhs rhs : Int64) : Except EvalError Int64 :=
  match op with
  | .add => .ok (saturate (lhs.toInt + rhs.toInt))
  | .sub => .ok (saturate (lhs.toInt - rhs.toInt))
  | .mul => .ok (saturate (lhs.toInt * rhs.toInt))
  | .div =>
    if rhs = 0 then .error .divisionByZero
    else if lhs = Int64.minValue ∧ rhs = -1 then .error .quotientOverflow
    else .ok (lhs / rhs)
  | .and => .ok (lhs &&& rhs)
  | .or => .ok (lhs ||| rhs)
  | .shiftLeft => if isShift rhs then .ok (lhs <<< rhs) else .error (.invalidShift rhs)
  | .shiftRight => if isShift rhs then .ok (lhs >>> rhs) else .error (.invalidShift rhs)
  | .not => .ok (complement rhs)

end Gamebook.Constant
