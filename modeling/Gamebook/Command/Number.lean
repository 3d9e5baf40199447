import Gamebook.Text.Numeral

/-!
# Numbers on the command line

Sizes and addresses are written in decimal, or in hexadecimal behind `0x` or `$`, and have at most
32 bits.
-/

namespace Gamebook.Command

/-- Why a text is not a number. -/
inductive NumberError where
  | empty
  | invalidDigit
  | tooLarge
deriving DecidableEq

/-- The wording of the error. -/
def NumberError.message : NumberError → String
  | .empty => "cannot parse integer from empty string"
  | .invalidDigit => "invalid digit found in string"
  | .tooLarge => "number too large to fit in target type"

/-- One past the greatest number. -/
def numberEnd : Nat := 0x100000000

/-- Reads digits behind those that make up `value`. The first of them that is wrong, or that makes
the number too large, decides. -/
def readDigits (base value : Nat) : List Char → Except NumberError Nat
  | [] => .ok value
  | c :: cs =>
    match Text.digit? base c with
    | none => .error .invalidDigit
    | some digit =>
      if numberEnd ≤ value * base + digit then .error .tooLarge
      else readDigits base (value * base + digit) cs

/-- Reads digits, which a plus sign may precede. -/
def readUnsigned (base : Nat) : List Char → Except NumberError Nat
  | [] => .error .empty
  | ['+'] => .error .invalidDigit
  | '+' :: cs => readDigits base 0 cs
  | cs => readDigits base 0 cs

/-- Reads a number. -/
def readNumber (text : String) : Except NumberError Nat :=
  match text.toList with
  | '0' :: 'x' :: cs | '0' :: 'X' :: cs | '$' :: cs => readUnsigned 16 cs
  | cs => readUnsigned 10 cs

end Gamebook.Command
