import Gamebook.Grammar.Expression

/-!
# Expressions as trees

The grammar reads expressions without building a tree. Here is the tree that a reader of a script
has in mind (`Tree`), the code it stands for (`Tree.code`), and the ways to write it down
(`Written`).

Operators have levels, from the loosest to the tightest (`Level`). `Written level t tokens` says
that `tokens` spell `t` in a place where operators looser than `level` need parentheses. An operator
that can be repeated takes on its left what is written at its own level, and on its right what is
tighter; a comparison takes only what is tighter on both sides. Parentheses may always be added.

The code is postfix: the operands and then the operator. A part that is made of constants and
arithmetic only is not computed by the target but pushed as a constant, by its value if it is known
and as an expression if it is not. The parts of an attribute have to be known where it is written,
so what a tree comes to depends on the constants that are known there.
-/

namespace Gamebook.Grammar

open Constant (Expr Operator EvalError)
open Gamebook.Symbol (Kind)

/-! ## Operators -/

/-- The levels of operators. -/
inductive Level where
  | or | and | not | comparison | bitOr | bitAnd | shift | sum | product | complement | primary
deriving DecidableEq

namespace Level

/-- The loosest level comes first. -/
def rank : Level → Nat
  | or => 0
  | and => 1
  | not => 2
  | comparison => 3
  | bitOr => 4
  | bitAnd => 5
  | shift => 6
  | sum => 7
  | product => 8
  | complement => 9
  | primary => 10

/-- The next tighter level, up to the tightest. -/
def tighter : Level → Level
  | or => and
  | and => not
  | not => comparison
  | comparison => bitOr
  | bitOr => bitAnd
  | bitAnd => shift
  | shift => sum
  | sum => product
  | product => complement
  | complement => primary
  | primary => primary

end Level

/-- The operators between two operands that can be repeated. -/
inductive BinaryOperator where
  | or | and | bitOr | bitAnd | shiftLeft | shiftRight | add | sub | mul | div

namespace BinaryOperator

def level : BinaryOperator → Level
  | or => .or
  | and => .and
  | bitOr => .bitOr
  | bitAnd => .bitAnd
  | shiftLeft | shiftRight => .shift
  | add | sub => .sum
  | mul | div => .product

def token : BinaryOperator → Token
  | or => .keyword .OR
  | and => .keyword .AND
  | bitOr => .bitOr
  | bitAnd => .bitAnd
  | shiftLeft => .shiftLeft
  | shiftRight => .shiftRight
  | add => .plus
  | sub => .minus
  | mul => .times
  | div => .divide

/-- The operator on constants, if it is one of arithmetic. -/
def arithmetic? : BinaryOperator → Option Operator
  | or | and => none
  | bitOr => some .or
  | bitAnd => some .and
  | shiftLeft => some .shiftLeft
  | shiftRight => some .shiftRight
  | add => some .add
  | sub => some .sub
  | mul => some .mul
  | div => some .div

/-- The instruction on the stack. The target cannot multiply or divide. -/
def opcode? : BinaryOperator → Option Opcode
  | or | bitOr => some .OR
  | and | bitAnd => some .AND
  | shiftLeft => some .SHIFT_L
  | shiftRight => some .SHIFT_R
  | add => some .ADD
  | sub => some .SUB
  | mul | div => none

end BinaryOperator

/-- The comparisons. -/
inductive Comparison where
  | equal | notEqual | lessEqual | greaterEqual | less | greater

namespace Comparison

def token : Comparison → Token
  | equal => .equals
  | notEqual => .notEquals
  | lessEqual => .lessEqual
  | greaterEqual => .greaterEqual
  | less => .less
  | greater => .greater

def opcode : Comparison → Opcode
  | equal => .CP_EQ
  | notEqual => .CP_NE
  | lessEqual => .CP_LE
  | greaterEqual => .CP_ME
  | less => .CP_LT
  | greater => .CP_MT

end Comparison

/-- The level of the operators that a token stands for between two operands. -/
def infixLevel? : Token → Option Level
  | .keyword .OR => some .or
  | .keyword .AND => some .and
  | .equals | .notEquals | .lessEqual | .greaterEqual | .less | .greater => some .comparison
  | .bitOr => some .bitOr
  | .bitAnd => some .bitAnd
  | .shiftLeft | .shiftRight => some .shift
  | .plus | .minus => some .sum
  | .times | .divide => some .product
  | _ => none

/-- Whether an expression can go on with a token: with an operator between two operands, or with the
bracket in front of an index. -/
def goesOn (t : Token) : Bool := (infixLevel? t).isSome || t = .openSquare

/-! ## What operators stand between -/

/-- The questions without arguments. -/
inductive Query where
  | xPos | yPos | isDisk | saveResult | numOptions | optionSel | optionVal | random | inkey

namespace Query

def keyword : Query → Keyword
  | xPos => .XPOS
  | yPos => .YPOS
  | isDisk => .ISDISK
  | saveResult => .SAVERESULT
  | numOptions => .NUMOPTIONS
  | optionSel => .OPTIONSEL
  | optionVal => .OPTIONVAL
  | random => .RANDOM
  | inkey => .INKEY

def instruction : Query → Instruction
  | xPos => .op .PUSH_XPOS
  | yPos => .op .PUSH_YPOS
  | isDisk => .op .PUSH_IS_DISK
  | saveResult => .op .PUSH_SAVE_RESULT
  | numOptions => .code .PUSH_OPTION_ST [.literal 0]
  | optionSel => .code .PUSH_OPTION_ST [.literal 1]
  | optionVal => .code .PUSH_OPTION_ST [.literal 2]
  | random => .code .PUSH_RANDOM [.literal 0]
  | inkey => .code .PUSH_INKEY [.literal 0]

end Query

/-- The questions with a limit, which is a constant. -/
inductive Limited where
  | random | inkey

namespace Limited

def keyword : Limited → Keyword
  | random => .RANDOM
  | inkey => .INKEY

def opcode : Limited → Opcode
  | random => .PUSH_RANDOM
  | inkey => .PUSH_INKEY

end Limited

/-- The keyword for an attribute or for a mask. -/
def attributeKeyword : (mask : Bool) → Keyword
  | false => .ATTRVAL
  | true => .ATTRMASK

/-- The greatest values of ink and paper, and what these are multiplied by. -/
def greatestColour (mask : Bool) : UInt16 := if mask then 1 else 7

def colourFactor (mask : Bool) : UInt16 := if mask then 7 else 1

/-- The functions of two values. -/
inductive Pairing where
  | min | max | getAttr

namespace Pairing

def keyword : Pairing → Keyword
  | min => .MIN
  | max => .MAX
  | getAttr => .GETATTR

def opcode : Pairing → Opcode
  | min => .MIN
  | max => .MAX
  | getAttr => .PUSH_GET_ATTR

end Pairing

/-- What is asked of a variable. -/
inductive Access where
  /-- `@v`, its value. -/
  | content
  /-- `@@v`, its number. -/
  | number

def Access.opcode : Access → Opcode
  | content => .PUSH_I
  | number => .PUSH_D

/-- The token for a variable. -/
def variableToken : VariableBase → Token
  | .slot n => .number n.toNat
  | .named name => .identifier name

/-- An expression. -/
inductive Tree where
  | number (n : Nat)
  | constant (name : Located String)
  | reference (access : Access) (base : Located VariableBase)
  /-- A variable counted from another one. -/
  | displaced (access : Access) (base : Located VariableBase) (index : Tree)
  /-- `@(e)`, the value of the variable with this number. -/
  | indirect (e : Tree)
  | element (array : Located String) (index : Tree)
  | query (q : Query)
  | limited (f : Limited) (e : Tree)
  /-- `RANDOM(low, high)` -/
  | between (low high : Tree)
  /-- An attribute or a mask. -/
  | colours (mask : Bool) (ink paper bright flash : Tree)
  | pairing (f : Pairing) (lhs rhs : Tree)
  | complement (e : Tree)
  | negate (e : Tree)
  | compare (op : Comparison) (lhs rhs : Tree)
  | binary (op : BinaryOperator) (lhs rhs : Tree)

namespace Tree

/-! ## Code -/

/-- The value of a constant, if there is one and its value is known. -/
def valueOf (lookup : String → Option Int64) (e? : Option Expr) : Option Int64 :=
  e?.bind fun e => (e.eval lookup).toOption

/-- The same as a number of sixteen bits, and zero if it is not known. -/
def fieldOf (lookup : String → Option Int64) (e? : Option Expr) : UInt16 :=
  (valueOf lookup e?).elim 0 fun v => v.toInt.toNat.toUInt16

/-- The attribute with these parts. -/
def attributeExpr (mask : Bool) (ink paper bright flash : UInt16) : Expr :=
  .value (Int64.ofNat
    (attributeByte (ink * colourFactor mask) (paper * colourFactor mask) bright flash).toNat)

/-- The constant that a tree stands for, if it is made of constants, attributes and arithmetic
only. -/
def expr? (lookup : String → Option Int64) : Tree → Option Expr
  | number n => some (.value (Int64.ofNat n))
  | constant name => some (.named name.value)
  | colours mask ink paper bright flash =>
    some (attributeExpr mask (fieldOf lookup (ink.expr? lookup)) (fieldOf lookup (paper.expr? lookup))
      (fieldOf lookup (bright.expr? lookup)) (fieldOf lookup (flash.expr? lookup)))
  | complement e => (e.expr? lookup).map (·.unary .not)
  | binary op lhs rhs => do
    let op ← op.arithmetic?
    let lhs ← lhs.expr? lookup
    let rhs ← rhs.expr? lookup
    return lhs.binary op rhs
  | _ => none

/-- A constant as an operand: its value if it is known, and the expression otherwise. -/
def constantOperand (lookup : String → Option Int64) (e : Expr) : Operand :=
  match e.eval lookup with
  | .ok v => byteOperand v.toInt.toNat.toUInt16
  | .error _ => .constant e .byte

/-- The code for a part of a tree: the constant that it stands for, or else `runtime`. -/
def folded (lookup : String → Option Int64) (e? : Option Expr) (runtime : List Instruction) :
    List Instruction :=
  match e? with
  | some e => [.code .PUSH_D [constantOperand lookup e]]
  | none => runtime

/-- The value of the constant that a tree stands for, if it is known. -/
def known? (lookup : String → Option Int64) (t : Tree) : Option Int64 :=
  valueOf lookup (t.expr? lookup)

/-- The same as a number of sixteen bits. -/
def field (lookup : String → Option Int64) (t : Tree) : UInt16 := fieldOf lookup (t.expr? lookup)

/-- The variable that a displacement leads to. -/
def displace (lookup : String → Option Int64) (v : Variable) (index : Tree) : Variable :=
  (index.known? lookup).elim v fun n => v.offset n.toInt.toNat.toUInt16

/-- The element of an array at an index that is made of constants. -/
def elementOperands (lookup : String → Option Int64) (array : String) (index : Tree) :
    List Operand :=
  ((index.expr? lookup).map fun e => Operand.element ⟨array, e⟩).toList

/-- The operand for a limit that is made of constants. -/
def limitOperands (lookup : String → Option Int64) (limit : Tree) : List Operand :=
  ((limit.expr? lookup).map (constantOperand lookup)).toList

/-- The code that leaves the value of the tree on the stack, with `lookup` for the constants that
are known. -/
def code (lookup : String → Option Int64) : Tree → List Instruction
  | number n => folded lookup ((number n).expr? lookup) []
  | constant name => folded lookup ((constant name).expr? lookup) []
  | reference access base => [.code access.opcode [.variable ⟨base.value, 0⟩]]
  | displaced access base index =>
    [.code access.opcode [.variable (displace lookup ⟨base.value, 0⟩ index)]]
  | indirect e => e.code lookup ++ [.op .POP_PUSH_I]
  | element array index => [.code .PUSH_A (elementOperands lookup array.value index)]
  | query q => [q.instruction]
  | limited f e => [.code f.opcode (limitOperands lookup e)]
  | between low high =>
    [.code .PUSH_RANDOM [byteOperand (high.field lookup - low.field lookup)],
      .code .PUSH_D [byteOperand (low.field lookup)], .op .ADD]
  | colours mask ink paper bright flash =>
    folded lookup ((colours mask ink paper bright flash).expr? lookup) []
  | pairing f lhs rhs => lhs.code lookup ++ rhs.code lookup ++ [.op f.opcode]
  | complement e => folded lookup ((complement e).expr? lookup) (e.code lookup ++ [.op .NOT_B])
  | negate e => e.code lookup ++ [.op .NOT]
  | compare op lhs rhs => lhs.code lookup ++ rhs.code lookup ++ [.op op.opcode]
  | binary op lhs rhs =>
    folded lookup ((binary op lhs rhs).expr? lookup)
      (lhs.code lookup ++ rhs.code lookup ++ (op.opcode?.map .op).toList)

/-- What the tree comes to: a constant, or code. -/
def value (lookup : String → Option Int64) (t : Tree) : Value :=
  match t.expr? lookup with
  | some e => .constant e
  | none => .runtime (t.code lookup)

/-- The uses of names, in the order in which they are written. -/
def mentions : Tree → List (Located String × Kind)
  | constant name => [(name, .constant)]
  | reference _ base => ofBase base
  | displaced _ base index => ofBase base ++ index.mentions
  | element array index => (array, .array) :: index.mentions
  | indirect e | limited _ e | complement e | negate e => e.mentions
  | between low high => low.mentions ++ high.mentions
  | colours _ ink paper bright flash =>
    ink.mentions ++ (paper.mentions ++ (bright.mentions ++ flash.mentions))
  | pairing _ lhs rhs | compare _ lhs rhs | binary _ lhs rhs => lhs.mentions ++ rhs.mentions
  | number _ | query _ => []
where
  ofBase (base : Located VariableBase) : List (Located String × Kind) :=
    match base.value with
    | .slot _ => []
    | .named name => [(⟨name, base.place⟩, .variable)]

/-- A value that is a byte. -/
def IsByte (v : Int64) : Prop := 0 ≤ v.toInt ∧ v.toInt ≤ 255

instance (v : Int64) : Decidable (IsByte v) := inferInstanceAs (Decidable (_ ∧ _))

/-- If the tree is a constant, it is a byte, or one of its names is not declared yet. -/
def Pushable (lookup : String → Option Int64) (t : Tree) : Prop :=
  ∀ e, t.expr? lookup = some e →
    (∃ v, e.eval lookup = .ok v ∧ IsByte v) ∨ ∃ name, e.eval lookup = .error (.undefined name)

/-- The tree is a constant that is known and a byte. -/
def KnownByte (lookup : String → Option Int64) (t : Tree) : Prop :=
  ∃ v, t.known? lookup = some v ∧ IsByte v

/-- The tree is a part of an attribute. -/
def IsPart (lookup : String → Option Int64) (t : Tree) (greatest : UInt16) : Prop :=
  t.KnownByte lookup ∧ t.field lookup ≤ greatest

/-- There is code for the tree: only constants are multiplied and divided, constants that are pushed
are bytes, and the ones between square brackets and the limits are constants. A displacement, the
ends of a range and the parts of an attribute have to be known. -/
def Lowers (lookup : String → Option Int64) : Tree → Prop
  | number _ | constant _ | reference _ _ | query _ => True
  | displaced _ _ index => index.Lowers lookup ∧ index.KnownByte lookup
  | element _ index => index.Lowers lookup ∧ (index.expr? lookup).isSome
  | limited _ e => e.Lowers lookup ∧ (e.expr? lookup).isSome ∧ e.Pushable lookup
  | between low high =>
    (low.Lowers lookup ∧ low.KnownByte lookup) ∧ (high.Lowers lookup ∧ high.KnownByte lookup) ∧
      low.field lookup < high.field lookup
  | colours mask ink paper bright flash =>
    (ink.Lowers lookup ∧ ink.IsPart lookup (greatestColour mask)) ∧
      (paper.Lowers lookup ∧ paper.IsPart lookup (greatestColour mask)) ∧
      (bright.Lowers lookup ∧ bright.IsPart lookup 1) ∧ flash.Lowers lookup ∧ flash.IsPart lookup 1
  | complement e => e.Lowers lookup
  | indirect e | negate e => e.Lowers lookup ∧ e.Pushable lookup
  | pairing _ lhs rhs | compare _ lhs rhs =>
    (lhs.Lowers lookup ∧ lhs.Pushable lookup) ∧ rhs.Lowers lookup ∧ rhs.Pushable lookup
  | binary op lhs rhs =>
    (lhs.Lowers lookup ∧ rhs.Lowers lookup) ∧
      (((binary op lhs rhs).expr? lookup).isSome ∨
        op.opcode?.isSome ∧ lhs.Pushable lookup ∧ rhs.Pushable lookup)

end Tree

/-! ## Writing -/

/-- The signs in front of a variable. -/
inductive Access.Written : Access → List Lexeme → Prop
  | content (p : Location) : Written .content [⟨.ok .indirection, p⟩]
  | number (p q : Location) : Written .number [⟨.ok .indirection, p⟩, ⟨.ok .indirection, q⟩]

/-- The ways to write a tree where operators looser than the level need parentheses. -/
inductive Written : Level → Tree → List Lexeme → Prop
  | number (n : Nat) (p : Location) : Written .primary (.number n) [⟨.ok (.number n), p⟩]
  | constant (name : Located String) :
    Written .primary (.constant name) [⟨.ok (.identifier name.value), name.place⟩]
  | reference {access : Access} {signs : List Lexeme} (base : Located VariableBase) :
    access.Written signs →
    Written .primary (.reference access base)
      (signs ++ [⟨.ok (variableToken base.value), base.place⟩])
  | displaced {access : Access} {signs : List Lexeme} (base : Located VariableBase) (p q : Location)
    {index : Tree} {ls : List Lexeme} : access.Written signs → Written .bitOr index ls →
    Written .primary (.displaced access base index)
      (signs ++ ⟨.ok (variableToken base.value), base.place⟩ ::
        ⟨.ok .openSquare, p⟩ :: (ls ++ [⟨.ok .closeSquare, q⟩]))
  | indirect (p q r : Location) {e : Tree} {ls : List Lexeme} : Written .or e ls →
    Written .primary (.indirect e)
      (⟨.ok .indirection, p⟩ :: ⟨.ok .openParen, q⟩ :: (ls ++ [⟨.ok .closeParen, r⟩]))
  | element (array : Located String) (p q : Location) {index : Tree} {ls : List Lexeme} :
    Written .bitOr index ls →
    Written .primary (.element array index)
      (⟨.ok (.identifier array.value), array.place⟩ :: ⟨.ok .openSquare, p⟩ ::
        (ls ++ [⟨.ok .closeSquare, q⟩]))
  | query (q : Query) (p₁ p₂ p₃ : Location) :
    Written .primary (.query q)
      [⟨.ok (.keyword q.keyword), p₁⟩, ⟨.ok .openParen, p₂⟩, ⟨.ok .closeParen, p₃⟩]
  | limited (f : Limited) (p₁ p₂ p₃ : Location) {e : Tree} {ls : List Lexeme} :
    Written .bitOr e ls →
    Written .primary (.limited f e)
      (⟨.ok (.keyword f.keyword), p₁⟩ :: ⟨.ok .openParen, p₂⟩ :: (ls ++ [⟨.ok .closeParen, p₃⟩]))
  | between (p₁ p₂ p₃ p₄ : Location) {a b : Tree} {las lbs : List Lexeme} :
    Written .bitOr a las → Written .bitOr b lbs →
    Written .primary (.between a b)
      (⟨.ok (.keyword .RANDOM), p₁⟩ :: ⟨.ok .openParen, p₂⟩ ::
        (las ++ ⟨.ok .comma, p₃⟩ :: (lbs ++ [⟨.ok .closeParen, p₄⟩])))
  | colours (mask : Bool) (p₁ p₂ p₃ p₄ p₅ p₆ : Location) {a b c d : Tree}
    {las lbs lcs lds : List Lexeme} :
    Written .bitOr a las → Written .bitOr b lbs → Written .bitOr c lcs → Written .bitOr d lds →
    Written .primary (.colours mask a b c d)
      (⟨.ok (.keyword (attributeKeyword mask)), p₁⟩ :: ⟨.ok .openParen, p₂⟩ ::
        (las ++ ⟨.ok .comma, p₃⟩ :: (lbs ++ ⟨.ok .comma, p₄⟩ :: (lcs ++ ⟨.ok .comma, p₅⟩ ::
          (lds ++ [⟨.ok .closeParen, p₆⟩])))))
  | pairing (f : Pairing) (p₁ p₂ p₃ p₄ : Location) {a b : Tree} {las lbs : List Lexeme} :
    Written .or a las → Written .or b lbs →
    Written .primary (.pairing f a b)
      (⟨.ok (.keyword f.keyword), p₁⟩ :: ⟨.ok .openParen, p₂⟩ ::
        (las ++ ⟨.ok .comma, p₃⟩ :: (lbs ++ [⟨.ok .closeParen, p₄⟩])))
  | parentheses (p q : Location) {t : Tree} {ls : List Lexeme} : Written .or t ls →
    Written .primary t (⟨.ok .openParen, p⟩ :: (ls ++ [⟨.ok .closeParen, q⟩]))
  | complement (p : Location) {e : Tree} {ls : List Lexeme} : Written .complement e ls →
    Written .complement (.complement e) (⟨.ok .bitNot, p⟩ :: ls)
  | negate (p : Location) {e : Tree} {ls : List Lexeme} : Written .not e ls →
    Written .not (.negate e) (⟨.ok (.keyword .NOT), p⟩ :: ls)
  | compare (op : Comparison) (p : Location) {a b : Tree} {las lbs : List Lexeme} :
    Written .bitOr a las → Written .bitOr b lbs →
    Written .comparison (.compare op a b) (las ++ ⟨.ok op.token, p⟩ :: lbs)
  | binary (op : BinaryOperator) (p : Location) {a b : Tree} {las lbs : List Lexeme} :
    Written op.level a las → Written op.level.tighter b lbs →
    Written op.level (.binary op a b) (las ++ ⟨.ok op.token, p⟩ :: lbs)
  | tighter {level : Level} {t : Tree} {ls : List Lexeme} : Written level.tighter t ls →
    Written level t ls

/-- The ways to write a variable, counted from another one or not. -/
inductive VariableWritten (base : Located VariableBase) : Option Tree → List Lexeme → Prop
  | alone : VariableWritten base none [⟨.ok (variableToken base.value), base.place⟩]
  | displaced (p q : Location) {index : Tree} {ls : List Lexeme} : Written .bitOr index ls →
    VariableWritten base (some index) (⟨.ok (variableToken base.value), base.place⟩ ::
      ⟨.ok .openSquare, p⟩ :: (ls ++ [⟨.ok .closeSquare, q⟩]))

end Gamebook.Grammar
