import Gamebook.Bytecode.Opcode
import Gamebook.Constant.Expr
import Gamebook.Text.Quoted
import Gamebook.Text.Utf8

/-!
# Instructions

A program is a flat list of instructions: labels, texts, arrays of bytes, and opcodes with their
operands. Operands are symbolic until the program is placed in memory: a variable may be a declared
name, a number may be a constant expression that is not computed yet, an address is a label or an
element of an array.
-/

namespace Gamebook

/-- A variable by its number, or by a name that is declared somewhere. -/
inductive VariableBase where
  | slot (number : UInt8)
  | named (name : String)
deriving DecidableEq

/-- A variable, counted from another one. -/
structure Variable where
  base : VariableBase
  displacement : UInt16
deriving DecidableEq

namespace Variable

/-- The variable with this number. -/
def slot (number : UInt8) : Variable := ⟨.slot number, 0⟩

/-- The variable declared with this name. -/
def named (name : String) : Variable := ⟨.named name, 0⟩

/-- The variable `n` places further on; the displacement stops at the greatest word. -/
def offset (v : Variable) (n : UInt16) : Variable :=
  { v with displacement := (min (v.displacement.toNat + n.toNat) 0xFFFF).toUInt16 }

/-- The text of a variable. -/
def render (v : Variable) : String :=
  let base := match v.base with
    | .slot number => "@" ++ toString number.toNat
    | .named name => "@" ++ name
  if v.displacement = 0 then base else base ++ "[" ++ toString v.displacement.toNat ++ "]"

end Variable

/-- An element of an array, counted from zero. -/
structure Element where
  array : String
  index : Constant.Expr
deriving DecidableEq

/-- What follows an opcode. -/
inductive Operand where
  /-- A byte. -/
  | literal (byte : UInt8)
  /-- Two bytes. -/
  | word (value : UInt16)
  | variable (v : Variable)
  /-- A constant whose value is not known yet. -/
  | constant (e : Constant.Expr) (width : Constant.Width)
  /-- The address of a label. -/
  | label (name : String)
  /-- The address of an element. -/
  | element (e : Element)
deriving DecidableEq

/-- The text of an operand. -/
def Operand.render : Operand → String
  | .literal byte => toString byte.toNat
  | .word value => toString value.toNat
  | .variable v => v.render
  | .constant e _ => "(" ++ e.render ++ ")"
  | .label name => name
  | .element e => e.array ++ "[" ++ e.index.render ++ "]"

/-- One item of a program. -/
inductive Instruction where
  /-- A name for the place of what follows. -/
  | label (name : String)
  /-- Prose to be shown, without the byte that ends it. -/
  | text (bytes : List UInt8)
  /-- Bytes with a name for the place of the first. -/
  | array (name : String) (bytes : List UInt8)
  | code (opcode : Opcode) (operands : List Operand)
deriving DecidableEq

namespace Instruction

/-- An opcode without operands. -/
def op (opcode : Opcode) : Instruction := .code opcode []

/-- A jump to a label, of whatever kind. -/
def jump (opcode : Opcode) (label : String) : Instruction := .code opcode [.label label]

/-- The opcode, if the instruction is one. -/
def opcode? : Instruction → Option Opcode
  | .code opcode _ => some opcode
  | _ => none

/-- How many bytes the instruction takes in memory: texts have an opcode and an end, arrays an
opcode and a length. -/
def size : Instruction → Nat
  | .label _ => 0
  | .text bytes => bytes.length + 2
  | .array _ bytes => bytes.length + 2
  | .code opcode _ => opcode.size

/-- The text of an opcode with its operands. -/
def renderCode (opcode : Opcode) (operands : List Operand) : String :=
  if operands.isEmpty then opcode.mnemonic
  else opcode.mnemonic ++ "\t" ++ ", ".intercalate (operands.map Operand.render)

/-- The text of an array. -/
def renderArray (name : String) (bytes : List UInt8) : String :=
  "DATA\t" ++ name ++ " [" ++ ", ".intercalate (bytes.map fun b => toString b.toNat) ++ "]"

/-- The text of a stretch of prose. -/
def renderText (bytes : List UInt8) : String := "TEXT\t" ++ Text.quote (Text.decodeLossy bytes)

end Instruction

end Gamebook
