/-!
# Opcodes

The instruction set of the interpreter: a byte for each operation, its mnemonic, and the operands
that follow it. The codes leave no gap, so an opcode's code is its place in `Opcode.all`, and
`Opcode.ofCode?` looks the place up.
-/

namespace Gamebook

/-- The form an operand takes behind an opcode. -/
inductive OperandShape where
  /-- One byte. -/
  | byte
  /-- Two bytes, the low one first. -/
  | word
  /-- The number of a variable, one byte. -/
  | slot
  /-- A bank and an address, three bytes. -/
  | address
deriving DecidableEq

namespace OperandShape

/-- How many bytes the operand takes. -/
def size : OperandShape → Nat
  | byte => 1
  | word => 2
  | slot => 1
  | address => 3

/-- The name of the form. -/
def name : OperandShape → String
  | byte => "byte"
  | word => "word"
  | slot => "variable"
  | address => "address"

end OperandShape

/-- An operation of the interpreter; the constructors are the mnemonics, in the order of their
codes. -/
inductive Opcode where
  | END | TEXT | GOTO | GOSUB | RETURN | MARGINS | CENTER | AT | SET_D | SET_I | POP_SET | PUSH_D
  | PUSH_I | IF_GOTO | IF_N_GOTO | CLEAR_OPTIONS | NOT | NOT_B | AND | OR | ADD | SUB | CP_EQ
  | CP_NE | CP_LE | CP_ME | CP_LT | CP_MT | INK_D | PAPER_D | BORDER_D | PRINT_D | BRIGHT_D
  | FLASH_D | PICTURE_D | DISPLAY_D | SFX_D | TRACK_D | PLAY_D | LOOP_D | CHAR_D | POP_INK
  | POP_PAPER | POP_BORDER | POP_PRINT | POP_BRIGHT | POP_FLASH | POP_PICTURE | POP_DISPLAY
  | POP_SFX | POP_TRACK | POP_PLAY | POP_LOOP | POP_CHAR | POP_AT | OPTION | WAITKEY | CHOOSE
  | WAIT | PAUSE | TYPERATE | CLEAR | PAGEPAUSE | TAB | NEWLINE | BACKSPACE | REPCHAR | RANDOMIZE
  | PUSH_RANDOM | PUSH_INKEY | PUSH_XPOS | PUSH_YPOS | SHIFT_L | SHIFT_R | MIN | MAX | POP_PUSH_I
  | POP_SET_DI | PUSH_A | POP_SET_A | DATA | CHOOSE_W | PRINT_I | WINDOW | BLIT | POP_BLIT
  | POP_ALL_BLIT | FILLATTR | POP_FILLATTR | PUTATTR | POP_PUTATTR | POP_ALL_PUTATTR | FADEOUT
  | MENUCONFIG | POP_MENUCONFIG | POP_SLOT_SAVE | POP_SLOT_LOAD | RAMSAVE | RAMLOAD
  | PUSH_GET_ATTR | PUSH_SAVE_RESULT | PUSH_OPTION_ST | PUSH_IS_DISK
deriving DecidableEq

namespace Opcode

/-- Every opcode, in the order of the codes. -/
def all : List Opcode :=
  [.END, .TEXT, .GOTO, .GOSUB, .RETURN, .MARGINS, .CENTER, .AT, .SET_D, .SET_I, .POP_SET,
   .PUSH_D, .PUSH_I, .IF_GOTO, .IF_N_GOTO, .CLEAR_OPTIONS, .NOT, .NOT_B, .AND, .OR, .ADD, .SUB,
   .CP_EQ, .CP_NE, .CP_LE, .CP_ME, .CP_LT, .CP_MT, .INK_D, .PAPER_D, .BORDER_D, .PRINT_D,
   .BRIGHT_D, .FLASH_D, .PICTURE_D, .DISPLAY_D, .SFX_D, .TRACK_D, .PLAY_D, .LOOP_D, .CHAR_D,
   .POP_INK, .POP_PAPER, .POP_BORDER, .POP_PRINT, .POP_BRIGHT, .POP_FLASH, .POP_PICTURE,
   .POP_DISPLAY, .POP_SFX, .POP_TRACK, .POP_PLAY, .POP_LOOP, .POP_CHAR, .POP_AT, .OPTION,
   .WAITKEY, .CHOOSE, .WAIT, .PAUSE, .TYPERATE, .CLEAR, .PAGEPAUSE, .TAB, .NEWLINE, .BACKSPACE,
   .REPCHAR, .RANDOMIZE, .PUSH_RANDOM, .PUSH_INKEY, .PUSH_XPOS, .PUSH_YPOS, .SHIFT_L, .SHIFT_R,
   .MIN, .MAX, .POP_PUSH_I, .POP_SET_DI, .PUSH_A, .POP_SET_A, .DATA, .CHOOSE_W, .PRINT_I,
   .WINDOW, .BLIT, .POP_BLIT, .POP_ALL_BLIT, .FILLATTR, .POP_FILLATTR, .PUTATTR, .POP_PUTATTR,
   .POP_ALL_PUTATTR, .FADEOUT, .MENUCONFIG, .POP_MENUCONFIG, .POP_SLOT_SAVE, .POP_SLOT_LOAD,
   .RAMSAVE, .RAMLOAD, .PUSH_GET_ATTR, .PUSH_SAVE_RESULT, .PUSH_OPTION_ST, .PUSH_IS_DISK]

/-- The byte that stands for the opcode. -/
def code (op : Opcode) : UInt8 := op.ctorIdx.toUInt8

/-- The opcode that a byte stands for. -/
def ofCode? (code : UInt8) : Option Opcode := all[code.toNat]?

/-- The mnemonic. -/
def mnemonic : Opcode → String
  | END => "END"
  | TEXT => "TEXT"
  | GOTO => "GOTO"
  | GOSUB => "GOSUB"
  | RETURN => "RETURN"
  | MARGINS => "MARGINS"
  | CENTER => "CENTER"
  | AT => "AT"
  | SET_D => "SET_D"
  | SET_I => "SET_I"
  | POP_SET => "POP_SET"
  | PUSH_D => "PUSH_D"
  | PUSH_I => "PUSH_I"
  | IF_GOTO => "IF_GOTO"
  | IF_N_GOTO => "IF_N_GOTO"
  | CLEAR_OPTIONS => "CLEAR_OPTIONS"
  | NOT => "NOT"
  | NOT_B => "NOT_B"
  | AND => "AND"
  | OR => "OR"
  | ADD => "ADD"
  | SUB => "SUB"
  | CP_EQ => "CP_EQ"
  | CP_NE => "CP_NE"
  | CP_LE => "CP_LE"
  | CP_ME => "CP_ME"
  | CP_LT => "CP_LT"
  | CP_MT => "CP_MT"
  | INK_D => "INK_D"
  | PAPER_D => "PAPER_D"
  | BORDER_D => "BORDER_D"
  | PRINT_D => "PRINT_D"
  | BRIGHT_D => "BRIGHT_D"
  | FLASH_D => "FLASH_D"
  | PICTURE_D => "PICTURE_D"
  | DISPLAY_D => "DISPLAY_D"
  | SFX_D => "SFX_D"
  | TRACK_D => "TRACK_D"
  | PLAY_D => "PLAY_D"
  | LOOP_D => "LOOP_D"
  | CHAR_D => "CHAR_D"
  | POP_INK => "POP_INK"
  | POP_PAPER => "POP_PAPER"
  | POP_BORDER => "POP_BORDER"
  | POP_PRINT => "POP_PRINT"
  | POP_BRIGHT => "POP_BRIGHT"
  | POP_FLASH => "POP_FLASH"
  | POP_PICTURE => "POP_PICTURE"
  | POP_DISPLAY => "POP_DISPLAY"
  | POP_SFX => "POP_SFX"
  | POP_TRACK => "POP_TRACK"
  | POP_PLAY => "POP_PLAY"
  | POP_LOOP => "POP_LOOP"
  | POP_CHAR => "POP_CHAR"
  | POP_AT => "POP_AT"
  | OPTION => "OPTION"
  | WAITKEY => "WAITKEY"
  | CHOOSE => "CHOOSE"
  | WAIT => "WAIT"
  | PAUSE => "PAUSE"
  | TYPERATE => "TYPERATE"
  | CLEAR => "CLEAR"
  | PAGEPAUSE => "PAGEPAUSE"
  | TAB => "TAB"
  | NEWLINE => "NEWLINE"
  | BACKSPACE => "BACKSPACE"
  | REPCHAR => "REPCHAR"
  | RANDOMIZE => "RANDOMIZE"
  | PUSH_RANDOM => "PUSH_RANDOM"
  | PUSH_INKEY => "PUSH_INKEY"
  | PUSH_XPOS => "PUSH_XPOS"
  | PUSH_YPOS => "PUSH_YPOS"
  | SHIFT_L => "SHIFT_L"
  | SHIFT_R => "SHIFT_R"
  | MIN => "MIN"
  | MAX => "MAX"
  | POP_PUSH_I => "POP_PUSH_I"
  | POP_SET_DI => "POP_SET_DI"
  | PUSH_A => "PUSH_A"
  | POP_SET_A => "POP_SET_A"
  | DATA => "DATA"
  | CHOOSE_W => "CHOOSE_W"
  | PRINT_I => "PRINT_I"
  | WINDOW => "WINDOW"
  | BLIT => "BLIT"
  | POP_BLIT => "POP_BLIT"
  | POP_ALL_BLIT => "POP_ALL_BLIT"
  | FILLATTR => "FILLATTR"
  | POP_FILLATTR => "POP_FILLATTR"
  | PUTATTR => "PUTATTR"
  | POP_PUTATTR => "POP_PUTATTR"
  | POP_ALL_PUTATTR => "POP_ALL_PUTATTR"
  | FADEOUT => "FADEOUT"
  | MENUCONFIG => "MENUCONFIG"
  | POP_MENUCONFIG => "POP_MENUCONFIG"
  | POP_SLOT_SAVE => "POP_SLOT_SAVE"
  | POP_SLOT_LOAD => "POP_SLOT_LOAD"
  | RAMSAVE => "RAMSAVE"
  | RAMLOAD => "RAMLOAD"
  | PUSH_GET_ATTR => "PUSH_GET_ATTR"
  | PUSH_SAVE_RESULT => "PUSH_SAVE_RESULT"
  | PUSH_OPTION_ST => "PUSH_OPTION_ST"
  | PUSH_IS_DISK => "PUSH_IS_DISK"

/-- The operands that follow the opcode, in order. -/
def operands : Opcode → List OperandShape
  | .GOTO | .GOSUB | .IF_GOTO | .IF_N_GOTO | .PUSH_A | .POP_SET_A => [.address]
  | .MARGINS | .POP_BLIT | .PUTATTR | .FADEOUT => [.byte, .byte, .byte, .byte]
  | .AT | .REPCHAR | .POP_PUTATTR => [.byte, .byte]
  | .SET_D | .POP_SLOT_SAVE | .RAMSAVE | .RAMLOAD => [.slot, .byte]
  | .SET_I => [.slot, .slot]
  | .POP_SET | .PUSH_I | .POP_SET_DI | .PRINT_I => [.slot]
  | .PUSH_D | .INK_D | .PAPER_D | .BORDER_D | .PRINT_D | .BRIGHT_D | .FLASH_D
  | .PICTURE_D | .DISPLAY_D | .SFX_D | .TRACK_D | .PLAY_D | .LOOP_D | .CHAR_D
  | .PAGEPAUSE | .TAB | .NEWLINE | .BACKSPACE | .PUSH_RANDOM | .PUSH_INKEY | .WINDOW
  | .PUSH_OPTION_ST => [.byte]
  | .OPTION => [.byte, .address]
  | .WAIT | .PAUSE | .TYPERATE => [.word]
  | .CHOOSE_W => [.word, .byte, .address]
  | .BLIT => [.byte, .byte, .byte, .byte, .byte, .byte]
  | .FILLATTR => [.byte, .byte, .byte, .byte, .byte]
  | .MENUCONFIG => [.byte, .byte, .byte]
  | _ => []

/-- How many bytes the opcode and its operands take. -/
def size (op : Opcode) : Nat := op.operands.foldr (·.size + ·) 1

theorem ofCode?_code (op : Opcode) : ofCode? op.code = some op := by cases op <;> rfl

theorem mem_all (op : Opcode) : op ∈ all := by cases op <;> decide

end Opcode

end Gamebook
