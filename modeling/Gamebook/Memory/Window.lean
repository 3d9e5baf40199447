import Gamebook.Constant.Arithmetic
import Gamebook.Text.Numeral

/-!
# Memory windows

The memory of the target is divided into banks, of which one at a time is seen through a window of
addresses. Every bank keeps room at its end for a jump to the next one. `GenerateError` is all that
can keep a program from being placed in memory.
-/

namespace Gamebook.Memory

/-- The addresses at which a bank is seen. -/
structure Window where
  base : Nat
  capacity : Nat
deriving DecidableEq

/-- Bytes of a jump to the next bank. -/
def bridgeSize : Nat := 4

/-- One past the greatest address. -/
def addressEnd : Nat := 0x10000

/-- One past the greatest number of a bank. -/
def maxBanks : Nat := 256

namespace Window

/-- The window the hardware has unless something else is said. -/
def standard : Window := ⟨0xC000, 16384⟩

instance : Inhabited Window := ⟨standard⟩

/-- Bytes that can be filled before the jump to the next bank. -/
def usable (w : Window) : Nat := w.capacity - bridgeSize

/-- Whether code can be placed there at all. -/
def isValid (w : Window) : Bool := bridgeSize < w.capacity && w.base + w.capacity ≤ addressEnd

end Window

/-- How a program is placed in memory. -/
structure Options where
  /-- The windows of the banks, in order; all further banks have the last one. -/
  windows : List Window := [.standard]
  /-- Whether a text may go on in the next bank. -/
  sliceText : Bool := false

/-- The window of a bank. -/
def Options.window (o : Options) (bank : Nat) : Window :=
  (o.windows[min bank (o.windows.length - 1)]?).getD .standard

/-- Why a program cannot be placed in memory. -/
inductive GenerateError where
  | noWindows
  | invalidWindow (w : Window)
  | blockTooBig (size capacity : Nat)
  | tooManyBanks (limit : Nat)
  | duplicateLabel (name : String)
  | undefinedLabel (name : String)
  | undefinedArray (name : String)
  | undefinedVariable (name : String)
  | variableRange (number : Nat)
  | indexOutOfBounds (array : String) (index : Int) (length : Nat)
  | badOperand (opcode operand : String)
  | operandCount (opcode : String) (expected found : Nat)
  | constant (e : Constant.EvalError)
deriving DecidableEq

/-- The wording of the error. -/
def GenerateError.message : GenerateError → String
  | .noWindows => "No bank windows were given"
  | .invalidWindow w =>
    "Bank window at 0x" ++ Text.hexUpper 4 w.base ++ " with " ++ toString w.capacity ++
      " bytes cannot hold code"
  | .blockTooBig size capacity =>
    "Block of " ++ toString size ++ " bytes does not fit in a bank of " ++ toString capacity ++
      " bytes"
  | .tooManyBanks limit => "Program needs more than " ++ toString limit ++ " banks"
  | .duplicateLabel name => "Label `" ++ name ++ "` declared two times"
  | .undefinedLabel name => "Label `" ++ name ++ "` does not exist"
  | .undefinedArray name => "Array `" ++ name ++ "` does not exist"
  | .undefinedVariable name => "Variable `" ++ name ++ "` is not declared"
  | .variableRange number => "Variable index " ++ toString number ++ " out of range"
  | .indexOutOfBounds array index length =>
    "Index " ++ toString index ++ " is out of bounds for array `" ++ array ++ "` of length " ++
      toString length
  | .badOperand opcode operand => "Operand `" ++ operand ++ "` is not valid for " ++ opcode
  | .operandCount opcode expected found =>
    opcode ++ " expects " ++ toString expected ++ " operands, found " ++ toString found
  | .constant e => e.message

end Gamebook.Memory
