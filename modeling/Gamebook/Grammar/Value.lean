import Gamebook.Grammar.Parser

/-!
# Values of expressions

An expression is kept as a constant for as long as it is made of numbers, constants and operators
on them; otherwise it is the code that leaves its value on the stack of the target. A constant
becomes an operand in one of two ways: its value, if all its names are declared by now, or the
expression itself, to be computed once the program is complete (`Parser.immediate`).
-/

namespace Gamebook.Grammar

open Constant (Expr Width EvalError Operator)

/-- What an expression comes to. -/
inductive Value where
  | constant (e : Expr)
  /-- Instructions that leave the value on the stack. -/
  | runtime (code : List Instruction)

/-- The opcode for an operator on the stack, if the target has one. -/
def stackOpcode? : Operator → Option Opcode
  | .add => some .ADD
  | .sub => some .SUB
  | .and => some .AND
  | .or => some .OR
  | .shiftLeft => some .SHIFT_L
  | .shiftRight => some .SHIFT_R
  | .mul | .div | .not => none

/-- A value as a byte operand. -/
def byteOperand (value : UInt16) : Operand := .literal value.toUInt8

/-- A value as an operand of the given width. -/
def operandOf : Width → UInt16 → Operand
  | .byte, value => byteOperand value
  | .word, value => .word value

namespace Parser

/-- The value of a constant with the names declared by now. -/
def evaluate (e : Expr) : Parser (Except EvalError Int64) := fun s =>
  match e.eval s.symbols.value? with
  | .error .quotientOverflow => .overflowed
  | result => .done result s

/-- The value if it fits the width; otherwise that is a problem, and zero stands in. -/
def check (width : Width) (value : Int64) (place : Location) : Parser UInt16 :=
  match width.check value with
  | .ok v => return v
  | .error e => do
    report (.constant e) place
    return 0

/-- The operand for a constant: its value if it is known by now, or else the expression. -/
def immediate (e : Located Expr) (width : Width) : Parser Operand := do
  match ← evaluate e.value with
  | .ok value => return operandOf width (← check width value e.place)
  | .error (.undefined _) => return .constant e.value width
  | .error error => do
    report (.constant error) e.place
    return .literal 0

/-- The value of a constant that has to be known at this point. -/
def known (e : Located Expr) : Parser Int64 := do
  match ← evaluate e.value with
  | .ok value => return value
  | .error (.undefined _) => fail .unknownConstant e.place
  | .error error => fail (.constant error) e.place

/-- The value of a constant that has to be known at this point, and is a problem if it does not
fit. -/
def foldNow (e : Located Expr) (width : Width) : Parser (Option UInt16) := do
  match width.check (← known e) with
  | .ok v => return some v
  | .error error => do
    report (.constant error) e.place
    return none

/-- Instructions that leave a value on the stack. -/
def push (v : Located Value) : Parser (List Instruction) :=
  match v.value with
  | .runtime code => return code
  | .constant e => do return [.code .PUSH_D [← immediate ⟨e, v.place⟩ .byte]]

/-- Instructions that leave values on the stack, the last one on top. -/
def pushAll : List (Located Value) → Parser (List Instruction)
  | [] => return []
  | v :: vs => do
    let first ← push v
    return first ++ (← pushAll vs)

/-- The values of constants, or nothing if one of them is not known by now. -/
def foldAll : List (Located Value) → Parser (Option (List (Located Int64)))
  | [] => return some []
  | v :: vs =>
    match v.value with
    | .runtime _ => return none
    | .constant e => do
      match ← evaluate e with
      | .error _ => return none
      | .ok value => return (← foldAll vs).map (⟨value, v.place⟩ :: ·)

/-- Every value if it fits a byte, with a problem for each that does not. -/
def checkBytes : List (Located Int64) → Parser (List UInt16)
  | [] => return []
  | v :: vs => do
    let first ← check .byte v.value v.place
    return first :: (← checkBytes vs)

/-- The values of constants as bytes, or nothing if one of them is not known by now. -/
def foldBytes (vs : List (Located Value)) : Parser (Option (List UInt16)) := do
  match ← foldAll vs with
  | none => return none
  | some values => return some (← checkBytes values)

/-- Both values and then an opcode that takes them from the stack. -/
def runtimeBinary (op : Opcode) (lhs rhs : Located Value) : Parser (Located Value) := do
  let left ← push lhs
  let right ← push rhs
  return ⟨.runtime (left ++ right ++ [.op op]), lhs.place.span rhs.place⟩

/-- An operator on two values: a constant if both are, and code otherwise. -/
def arithmetic (op : Operator) (lhs rhs : Located Value) : Parser (Located Value) :=
  let place := lhs.place.span rhs.place
  match lhs.value, rhs.value with
  | .constant a, .constant b => return ⟨.constant (a.binary op b), place⟩
  | a, b =>
    match stackOpcode? op with
    | some opcode => runtimeBinary opcode ⟨a, place⟩ ⟨b, place⟩
    | none => fail .runtimeMultiply place

end Parser

end Gamebook.Grammar
