import Gamebook.Constant.Arithmetic
import Gamebook.Symbol.Table
import Gamebook.Token.Basic

/-!
# Problems of a script

Everything that can be wrong with a script before it is placed in memory: what is no token, what is
no statement, and names that do not fit together.
-/

namespace Gamebook

/-- Why tokens do not form a statement. -/
inductive SyntaxError where
  | unexpectedToken (expected : String) (found : Token)
  | unexpectedEnd (expected : String)
  /-- Two statements of one line without a colon between them. -/
  | missingColon
  | expectedStatement (found : Token)
  /-- The end of a block that was not begun. -/
  | unmatchedEnd (word : Keyword)
  /-- The target neither multiplies nor divides. -/
  | runtimeMultiply
  | expectedConstant
  /-- A constant that has to be known here and is not declared yet. -/
  | unknownConstant
  | constant (e : Constant.EvalError)
  | invalidRandom (low high : Nat)
  | arraySize (count : Int)
  | arrayInitializer (length given : Nat)
  | variableRange (number : Nat)
  | invalidAttribute (field : String) (value : Nat)
deriving DecidableEq

/-- The wording of the error. -/
def SyntaxError.message : SyntaxError → String
  | unexpectedToken expected found =>
    "Expected " ++ expected ++ ", found " ++ found.describe ++ " instead"
  | unexpectedEnd expected => "Expected " ++ expected ++ ", none was found instead"
  | missingColon => "Missing colon between statements"
  | expectedStatement found => "Expected a statement, found " ++ found.describe
  | unmatchedEnd word => "`" ++ word.name ++ "` without a matching opening statement"
  | runtimeMultiply => "Operators `*` and `/` are only allowed between constants"
  | expectedConstant => "Expected a constant expression"
  | unknownConstant => "Constant value must be known at this point"
  | constant e => e.message
  | invalidRandom low high =>
    "Invalid values on RANDOM(" ++ toString low ++ ", " ++ toString high ++ ")"
  | arraySize count => "Arrays hold between 1 and 255 elements, found " ++ toString count
  | arrayInitializer length given =>
    "Array has " ++ toString length ++ " elements but " ++ toString given ++
      " initial values were given"
  | variableRange number => "Variable index " ++ toString number ++ " out of range"
  | invalidAttribute field value => "Invalid " ++ field ++ " value " ++ toString value

/-- Anything wrong with a script. -/
inductive Problem where
  | scan (e : ScanError)
  | grammar (e : SyntaxError)
  | name (e : Symbol.NameError)
deriving DecidableEq

/-- The wording of the problem. -/
def Problem.message : Problem → String
  | scan e => e.message
  | grammar e => e.message
  | name e => e.message

end Gamebook
