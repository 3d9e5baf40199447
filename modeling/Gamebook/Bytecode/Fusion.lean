import Gamebook.Bytecode.Instruction
import Gamebook.Log

/-!
# Fusing pairs of instructions

A value that is pushed only to be taken from the stack at once does not need the stack: `fuse` gives
the one instruction that does the work of two. `fusePairs` goes through a program once, from the
front, and `optimize` also makes sure that the program ends with `END`.
-/

namespace Gamebook.Fusion

/-- The opcode that takes its value from the operand instead of the stack. -/
def direct? : Opcode → Option Opcode
  | .POP_INK => some .INK_D
  | .POP_PAPER => some .PAPER_D
  | .POP_BORDER => some .BORDER_D
  | .POP_PRINT => some .PRINT_D
  | .POP_BRIGHT => some .BRIGHT_D
  | .POP_FLASH => some .FLASH_D
  | .POP_PICTURE => some .PICTURE_D
  | .POP_DISPLAY => some .DISPLAY_D
  | .POP_SFX => some .SFX_D
  | .POP_TRACK => some .TRACK_D
  | .POP_PLAY => some .PLAY_D
  | .POP_LOOP => some .LOOP_D
  | .POP_CHAR => some .CHAR_D
  | _ => none

/-- The one instruction that does the work of two opcodes with their operands. -/
def fuseCode (first : Opcode) (values : List Operand) (second : Opcode) (targets : List Operand) :
    Option Instruction :=
  match first, second with
  | .PUSH_D, .POP_SET => some (.code .SET_D (targets ++ values))
  | .PUSH_I, .POP_SET => some (.code .SET_I (targets ++ values))
  | .PUSH_I, .POP_PRINT => some (.code .PRINT_I values)
  | .NOT, .IF_N_GOTO => some (.code .IF_GOTO targets)
  | .PUSH_D, pop => (direct? pop).map (.code · values)
  | _, _ => none

/-- The one instruction that does the work of two, if there is one. -/
def fuse : Instruction → Instruction → Option Instruction
  | .code first values, .code second targets => fuseCode first values second targets
  | _, _ => none

/-- Fuses pairs from the front; what a pair became is not looked at again. -/
def fusePairs : List Instruction → List Instruction
  | [] => []
  | [i] => [i]
  | i :: j :: rest =>
    match fuse i j with
    | some k => k :: fusePairs rest
    | none => i :: fusePairs (j :: rest)

/-- The program with an `END` behind it, unless it has one. -/
def withEnd (code : List Instruction) : List Instruction :=
  if code.getLast?.bind Instruction.opcode? = some .END then code else code ++ [.op .END]

/-- Fuses pairs and makes sure of an `END`. -/
def optimize (code : List Instruction) : List Instruction := withEnd (fusePairs code)

/-- What is noted about it. -/
def notes (code : List Instruction) : Log :=
  [⟨.debug, .fusion,
    "optimizer: " ++ toString (code.length - (fusePairs code).length) ++ " fusions, " ++
      toString code.length ++ " -> " ++ toString (optimize code).length ++ " instructions"⟩]

end Gamebook.Fusion
