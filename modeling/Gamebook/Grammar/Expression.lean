import Gamebook.Grammar.Value

/-!
# Expressions

From the loosest to the tightest: `OR`, `AND`, `NOT`, the comparisons (which do not chain), `|`,
`&`, the shifts, sums, products, `~`. A level of operators is a `chain` over the next tighter one,
and the levels from `|` on make up the constant expressions.

What a parenthesis or an argument encloses is again an expression, so the readers of this module
take the reader for what operators stand between (`primary`) as an argument, and `primary` itself
is told how deep it may go. Every level of depth costs a token, so as much depth as there are
tokens left is always enough; `expression`, `constant` and `variableReference` start from there.
-/

namespace Gamebook.Grammar

open Constant (Expr Width Operator)

/-- How an operator joins what stands before and behind it. -/
abbrev Join := Located Value → Located Value → Parser (Located Value)

/-- The operators of each level that can be repeated. -/
def orLevel : Token → Option Join
  | .keyword .OR => some (Parser.runtimeBinary .OR)
  | _ => none

def andLevel : Token → Option Join
  | .keyword .AND => some (Parser.runtimeBinary .AND)
  | _ => none

def bitOrLevel : Token → Option Join
  | .bitOr => some (Parser.arithmetic .or)
  | _ => none

def bitAndLevel : Token → Option Join
  | .bitAnd => some (Parser.arithmetic .and)
  | _ => none

def shiftLevel : Token → Option Join
  | .shiftLeft => some (Parser.arithmetic .shiftLeft)
  | .shiftRight => some (Parser.arithmetic .shiftRight)
  | _ => none

def sumLevel : Token → Option Join
  | .plus => some (Parser.arithmetic .add)
  | .minus => some (Parser.arithmetic .sub)
  | _ => none

def productLevel : Token → Option Join
  | .times => some (Parser.arithmetic .mul)
  | .divide => some (Parser.arithmetic .div)
  | _ => none

/-- The opcode of a comparison. -/
def comparison? : Token → Option Opcode
  | .equals => some .CP_EQ
  | .notEquals => some .CP_NE
  | .lessEqual => some .CP_LE
  | .greaterEqual => some .CP_ME
  | .less => some .CP_LT
  | .greater => some .CP_MT
  | _ => none

/-- The questions without arguments, and the instruction that answers each. -/
def query? : Keyword → Option Instruction
  | .XPOS => some (.op .PUSH_XPOS)
  | .YPOS => some (.op .PUSH_YPOS)
  | .ISDISK => some (.op .PUSH_IS_DISK)
  | .SAVERESULT => some (.op .PUSH_SAVE_RESULT)
  | .NUMOPTIONS => some (.code .PUSH_OPTION_ST [.literal 0])
  | .OPTIONSEL => some (.code .PUSH_OPTION_ST [.literal 1])
  | .OPTIONVAL => some (.code .PUSH_OPTION_ST [.literal 2])
  | _ => none

/-- The functions of two values. -/
def pairing? : Keyword → Option Opcode
  | .MIN => some .MIN
  | .MAX => some .MAX
  | .GETATTR => some .PUSH_GET_ATTR
  | _ => none

/-- The parts of an attribute and the greatest value of each. -/
def attributeFields : List (String × UInt16) :=
  [("ink", 7), ("paper", 7), ("bright", 1), ("flash", 1)]

/-- The parts of a mask, each of which is chosen or not. -/
def maskFields : List (String × UInt16) :=
  [("ink", 1), ("paper", 1), ("bright", 1), ("flash", 1)]

/-- The attribute byte: flash in bit 7, bright in bit 6, paper in bits 3 to 5, ink in bits 0 to
2. -/
def attributeByte (ink paper bright flash : UInt16) : UInt16 :=
  flash <<< 7 ||| bright <<< 6 ||| paper <<< 3 ||| ink

namespace Parser

/-! ## Operators -/

/-- Goes on with operators of a level behind `lhs`; at most `fuel` of them. -/
def chainFrom (operand : Parser (Located Value)) (level : Token → Option Join) :
    Nat → Located Value → Parser (Located Value)
  | 0, lhs => return lhs
  | fuel + 1, lhs => do
    match (← peek).bind level with
    | none => return lhs
    | some join =>
      let _ ← advance
      let rhs ← operand
      chainFrom operand level fuel (← join lhs rhs)

/-- Operands with operators of a level between them, joined from the left. -/
def chain (operand : Parser (Located Value)) (level : Token → Option Join) :
    Parser (Located Value) := do
  let first ← operand
  chainFrom operand level (← left) first

/-- An operand behind any number of the signs `t`, at most `fuel`; `wrap` says what each does. -/
def prefixed (t : Token) (wrap : Located Value → Parser Value) (operand : Parser (Located Value)) :
    Nat → Parser (Located Value)
  | 0 => operand
  | fuel + 1 => do
    if ← accept t then
      let start ← lastSeen
      let inner ← prefixed t wrap operand fuel
      return ⟨← wrap inner, start.span inner.place⟩
    else operand

/-- `NOT`, on the stack. -/
def negate (v : Located Value) : Parser Value := do
  return .runtime ((← push v) ++ [.op .NOT])

/-- `~`, on a constant or on the stack. -/
def complement (v : Located Value) : Parser Value :=
  match v.value with
  | .constant e => return .constant (e.unary .not)
  | .runtime code => return .runtime (code ++ [.op .NOT_B])

/-- The levels from `|` on. -/
def arithmeticOver (operand : Parser (Located Value)) : Parser (Located Value) :=
  let unary : Parser (Located Value) := do prefixed .bitNot complement operand (← left)
  chain (chain (chain (chain (chain unary productLevel) sumLevel) shiftLevel) bitAndLevel)
    bitOrLevel

/-- At most one comparison. -/
def comparisonOver (operand : Parser (Located Value)) : Parser (Located Value) := do
  let lhs ← arithmeticOver operand
  match (← peek).bind comparison? with
  | none => return lhs
  | some opcode =>
    let _ ← advance
    let rhs ← arithmeticOver operand
    runtimeBinary opcode lhs rhs

/-- All levels. -/
def expressionOver (operand : Parser (Located Value)) : Parser (Located Value) :=
  let negated : Parser (Located Value) := do
    prefixed (.keyword .NOT) negate (comparisonOver operand) (← left)
  chain (chain negated andLevel) orLevel

/-- An expression that has to be a constant. -/
def constantOver (operand : Parser (Located Value)) : Parser (Located Expr) := do
  let v ← arithmeticOver operand
  match v.value with
  | .constant e => return ⟨e, v.place⟩
  | .runtime _ => fail .expectedConstant v.place

/-! ## What operators stand between -/

/-- A constant between square brackets. -/
def indexOver (operand : Parser (Located Value)) : Parser Expr := do
  expect .openSquare "`[`"
  let index ← constantOver operand
  expect .closeSquare "`]`"
  return index.value

/-- A variable by number or name. -/
def variableFrom (t : Located Token) : Parser Variable :=
  match t.value with
  | .number n => if n ≤ 255 then return .slot n.toUInt8 else fail (.variableRange n) t.place
  | .identifier name => do
    mention ⟨name, t.place⟩ .variable
    return .named name
  | token => fail (.unexpectedToken "a variable" token) t.place

/-- A variable, with a displacement between square brackets if there is one. -/
def variableOver (operand : Parser (Located Value)) : Parser Variable := do
  let v ← variableFrom (← next "a variable")
  if (← peek) = some .openSquare then
    let displacement ← indexOver operand
    match ← foldNow ⟨displacement, ← lastSeen⟩ .byte with
    | some n => return v.offset n
    | none => return v
  else return v

/-- The value of a part of an attribute; one that is too great is a problem, and zero stands in. -/
def fieldValue (name : String) (greatest : UInt16) (e : Located Expr) : Parser UInt16 := do
  match ← foldNow e .byte with
  | none => return 0
  | some v =>
    if v ≤ greatest then return v
    else
      report (.invalidAttribute name v.toNat) e.place
      return 0

/-- The parts of an attribute, with commas between them. -/
def fieldsOver (operand : Parser (Located Value)) :
    List (String × UInt16) → Parser (List UInt16)
  | [] => return []
  | (name, greatest) :: fields => do
    let e ← constantOver operand
    let value ← fieldValue name greatest e
    if fields.isEmpty then return [value]
    else
      comma
      return value :: (← fieldsOver operand fields)

/-- The arguments of `ATTRVAL` and `ATTRMASK`, which are computed on the spot. -/
def attributeOver (operand : Parser (Located Value)) (mask : Bool) : Parser Value := do
  openParen
  let values ← fieldsOver operand (if mask then maskFields else attributeFields)
  closeParen
  let part (i : Nat) : UInt16 := values.getD i 0
  let whole : UInt16 := if mask then 7 else 1
  let byte := attributeByte (part 0 * whole) (part 1 * whole) (part 2) (part 3)
  return .constant (.value (Int64.ofNat byte.toNat))

/-- A random number from `first` up to and not including `second`. -/
def randomBetween (first second : Located Expr) (place : Location) : Parser Value := do
  let low? ← foldNow first .byte
  let high? ← foldNow second .byte
  match low?, high? with
  | some low, some high =>
    if low < high then
      return .runtime
        [.code .PUSH_RANDOM [byteOperand (high - low)], .code .PUSH_D [byteOperand low], .op .ADD]
    else fail (.invalidRandom low.toNat high.toNat) place
  | _, _ => return .runtime []

/-- `RANDOM()`, `RANDOM(limit)` or `RANDOM(low, high)`. -/
def randomOver (operand : Parser (Located Value)) : Parser Value := do
  openParen
  if ← accept .closeParen then
    return .runtime [.code .PUSH_RANDOM [.literal 0]]
  else
    let first ← constantOver operand
    if ← accept .comma then
      let second ← constantOver operand
      closeParen
      randomBetween first second (first.place.span (← lastSeen))
    else
      closeParen
      return .runtime [.code .PUSH_RANDOM [← immediate first .byte]]

/-- How long to wait for a key, which is for ever unless it is said. -/
def timeoutOver (operand : Parser (Located Value)) : Parser Operand := do
  if (← peek) = some .closeParen then return .literal 0
  else immediate (← constantOver operand) .byte

/-- What a token and what follows it stand for between operators. -/
def primaryFrom (operand : Parser (Located Value)) (t : Located Token) : Parser Value :=
  match t.value with
  | .number n => return .constant (.value (Int64.ofNat n))
  | .identifier name => do
    if (← peek) = some .openSquare then
      mention ⟨name, t.place⟩ .array
      let index ← indexOver operand
      return .runtime [.code .PUSH_A [.element ⟨name, index⟩]]
    else
      mention ⟨name, t.place⟩ .constant
      return .constant (.named name)
  | .indirection => do
    match ← peek with
    | some .indirection =>
      let _ ← advance
      return .runtime [.code .PUSH_D [.variable (← variableOver operand)]]
    | some .openParen =>
      let _ ← advance
      let inner ← expressionOver operand
      closeParen
      return .runtime ((← push inner) ++ [.op .POP_PUSH_I])
    | _ => return .runtime [.code .PUSH_I [.variable (← variableOver operand)]]
  | .openParen => do
    let inner ← expressionOver operand
    closeParen
    return inner.value
  | .keyword .RANDOM => randomOver operand
  | .keyword .INKEY => do
    openParen
    let timeout ← timeoutOver operand
    closeParen
    return .runtime [.code .PUSH_INKEY [timeout]]
  | .keyword .ATTRVAL => attributeOver operand false
  | .keyword .ATTRMASK => attributeOver operand true
  | .keyword k =>
    match query? k, pairing? k with
    | some instruction, _ => do
      openParen
      closeParen
      return .runtime [instruction]
    | none, some opcode => do
      openParen
      let lhs ← expressionOver operand
      comma
      let rhs ← expressionOver operand
      closeParen
      let left ← push lhs
      let right ← push rhs
      return .runtime (left ++ right ++ [.op opcode])
    | none, none => fail (.unexpectedToken "an expression" t.value) t.place
  | token => fail (.unexpectedToken "an expression" token) t.place

/-- What operators stand between, with at most `depth` more of it inside. -/
def primary : Nat → Parser (Located Value)
  | 0 => do fail (.unexpectedEnd "an expression") (← lastSeen)
  | depth + 1 => do
    let t ← next "an expression"
    let v ← primaryFrom (primary depth) t
    return ⟨v, t.place.span (← lastSeen)⟩

/-! ## Whole expressions -/

/-- Reads with as much depth as there are tokens left. -/
def nested {α : Type} (p : Parser (Located Value) → Parser α) : Parser α := do
  p (primary ((← left) + 1))

/-- Any expression. -/
def expression : Parser (Located Value) := nested expressionOver

/-- An expression that has to be a constant. -/
def constant : Parser (Located Expr) := nested constantOver

/-- A variable, with its displacement. -/
def variableReference : Parser Variable := nested variableOver

/-- A constant between square brackets. -/
def index : Parser Expr := nested indexOver

end Parser

end Gamebook.Grammar
