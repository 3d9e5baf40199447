import Mathlib.Data.List.Forall2
import Gamebook.Bytecode.Instruction
import Gamebook.Symbol.Table

/-!
# Code with its names in order

What the statements of a script are turned into has a shape. Code that computes pushes values one
after the other onto the stack of the target (`Pushes`), and whatever else an instruction does, it
takes from the stack all that was pushed for it, so that every statement leaves the stack as it
found it (`Balanced`). All operands have the form that their opcode asks for and refer to names that
stand for what they are taken for (`Operand.Fits`).

Nothing here is about how code comes about; that code of a program has this shape is shown in
`Gamebook.Proofs.Grammar`.
-/

namespace Gamebook

/-- Which names stand for something of a kind. -/
abbrev Scope := Symbol.Kind → String → Prop

/-- A constant expression put together from values and the names of constants. -/
inductive Constant.Expr.Scoped (σ : Scope) : Constant.Expr → Prop
  | value (v : Int64) : Scoped σ (.value v)
  | named {name : String} : σ .constant name → Scoped σ (.named name)
  | binary {lhs rhs : Constant.Expr} {op : Constant.Operator} :
    Scoped σ lhs → op.arity ≠ 1 → Scoped σ rhs → Scoped σ (lhs.binary op rhs)
  | unary {e : Constant.Expr} {op : Constant.Operator} :
    Scoped σ e → op.arity = 1 → Scoped σ (e.unary op)

/-- A variable by its number or by the name of a variable. -/
def Variable.Scoped (σ : Scope) (v : Variable) : Prop :=
  match v.base with
  | .slot _ => True
  | .named name => σ .variable name

/-- The form of an operand of a width. -/
def shapeOf : Constant.Width → OperandShape
  | .byte => .byte
  | .word => .word

/-- The operand can take the form, and its names stand for what it takes them for. -/
inductive Operand.Fits (σ : Scope) : OperandShape → Operand → Prop
  | literal {shape : OperandShape} (byte : UInt8) : shape ≠ .address → Fits σ shape (.literal byte)
  | word (value : UInt16) : Fits σ .word (.word value)
  | variable {shape : OperandShape} {v : Variable} :
    shape = .byte ∨ shape = .slot → v.Scoped σ → Fits σ shape (.variable v)
  | constant {shape : OperandShape} {e : Constant.Expr} {width : Constant.Width} :
    shape = shapeOf width → e.Scoped σ → Fits σ shape (.constant e width)
  | label {name : String} : σ .label name → Fits σ .address (.label name)
  | element {e : Element} : σ .array e.array → e.index.Scoped σ → Fits σ .address (.element e)

namespace Opcode

/-- How many values the operation takes from the stack. -/
def pops : Opcode → Nat
  | .NOT | .NOT_B | .POP_PUSH_I | .POP_SET | .POP_SET_DI | .POP_SET_A | .IF_GOTO | .IF_N_GOTO
  | .POP_INK | .POP_PAPER | .POP_BORDER | .POP_PRINT | .POP_BRIGHT | .POP_FLASH | .POP_PICTURE
  | .POP_DISPLAY | .POP_SFX | .POP_TRACK | .POP_PLAY | .POP_LOOP | .POP_CHAR | .POP_SLOT_SAVE
  | .POP_SLOT_LOAD => 1
  | .AND | .OR | .ADD | .SUB | .SHIFT_L | .SHIFT_R | .MIN | .MAX | .CP_EQ | .CP_NE | .CP_LE
  | .CP_ME | .CP_LT | .CP_MT | .PUSH_GET_ATTR | .POP_AT | .POP_BLIT | .POP_PUTATTR => 2
  | .POP_MENUCONFIG => 3
  | .POP_ALL_PUTATTR => 4
  | .POP_FILLATTR => 5
  | .POP_ALL_BLIT => 6
  | _ => 0

/-- How many values the operation leaves on the stack. -/
def pushes : Opcode → Nat
  | .PUSH_D | .PUSH_I | .PUSH_A | .PUSH_RANDOM | .PUSH_INKEY | .PUSH_XPOS | .PUSH_YPOS
  | .PUSH_GET_ATTR | .PUSH_SAVE_RESULT | .PUSH_OPTION_ST | .PUSH_IS_DISK | .POP_PUSH_I | .NOT
  | .NOT_B | .AND | .OR | .ADD | .SUB | .SHIFT_L | .SHIFT_R | .MIN | .MAX | .CP_EQ | .CP_NE
  | .CP_LE | .CP_ME | .CP_LT | .CP_MT => 1
  | _ => 0

/-- Whether the operation leaves nothing on the stack. The opcodes of texts and arrays only stand in
front of their bytes and are no operations. -/
def acts : Opcode → Bool
  | .TEXT | .DATA => false
  | op => op.pushes = 0

theorem pushes_of_acts {op : Opcode} (h : op.acts = true) : op.pushes = 0 := by
  unfold acts at h
  split at h
  · contradiction
  · contradiction
  · exact of_decide_eq_true h

end Opcode

/-- There is an operand for each form, and it fits. -/
abbrev OperandsFit (σ : Scope) (op : Opcode) (xs : List Operand) : Prop :=
  List.Forall₂ (Operand.Fits σ) op.operands xs

/-- The instruction is as it should be by itself: operands fit, and an array is not empty and has no
more elements than a byte can count. -/
def Instruction.Scoped (σ : Scope) : Instruction → Prop
  | .label _ | .text _ => True
  | .array _ bytes => 1 ≤ bytes.length ∧ bytes.length ≤ 255
  | .code op xs => OperandsFit σ op xs

/-- The code computes `n` values and leaves them on the stack. -/
inductive Pushes (σ : Scope) : Nat → List Instruction → Prop
  | nil : Pushes σ 0 []
  | compute {n : Nat} {op : Opcode} {xs : List Operand} {code : List Instruction} :
    Pushes σ (n + op.pops) code → op.pushes = 1 → OperandsFit σ op xs →
      Pushes σ (n + 1) (code ++ [.code op xs])

/-- The code leaves the stack as it was, and nothing is on it at a label, a text or an array. -/
inductive Balanced (σ : Scope) : List Instruction → Prop
  | nil : Balanced σ []
  | append {xs ys : List Instruction} : Balanced σ xs → Balanced σ ys → Balanced σ (xs ++ ys)
  | label (name : String) : Balanced σ [.label name]
  | text (bytes : List UInt8) : Balanced σ [.text bytes]
  | array (name : String) {bytes : List UInt8} :
    1 ≤ bytes.length → bytes.length ≤ 255 → Balanced σ [.array name bytes]
  | act {op : Opcode} {xs : List Operand} {code : List Instruction} :
    Pushes σ op.pops code → op.acts = true → OperandsFit σ op xs →
      Balanced σ (code ++ [.code op xs])

/-- Whether what is declared has a place in memory. -/
def Symbol.Declaration.isPlaced : Symbol.Declaration → Bool
  | .label | .array _ => true
  | .variable _ | .constant _ => false

/-- What an instruction gives a place in memory, by its name. -/
def Instruction.places? : Instruction → Option (String × Symbol.Declaration)
  | .label name => some (name, .label)
  | .array name bytes => some (name, .array bytes.length.toUInt8)
  | _ => none

/-- All that code gives a place. -/
def placed (code : List Instruction) : List (String × Symbol.Declaration) :=
  code.filterMap Instruction.places?

@[simp] theorem placed_nil : placed [] = [] := rfl

@[simp] theorem placed_append (xs ys : List Instruction) :
    placed (xs ++ ys) = placed xs ++ placed ys := List.filterMap_append

variable {σ : Scope}

namespace Pushes

variable {m n : Nat} {xs ys : List Instruction} {op : Opcode}

/-- What was pushed before stays below what is pushed now. -/
theorem append (hx : Pushes σ m xs) (hy : Pushes σ n ys) : Pushes σ (m + n) (xs ++ ys) := by
  generalize hk : n = k at hy
  induction hy generalizing n with
  | nil => simpa using hx
  | @compute k op operands code _ pushes fit ih =>
    rw [← List.append_assoc, ← Nat.add_assoc]
    refine .compute ?_ pushes fit
    rw [Nat.add_assoc]
    exact ih rfl

/-- One instruction that takes nothing from the stack. -/
theorem single {operands : List Operand} (pops : op.pops = 0) (pushes : op.pushes = 1)
    (fit : OperandsFit σ op operands) : Pushes σ 1 [.code op operands] :=
  @Pushes.compute σ 0 op operands [] (by rw [pops]; exact .nil) pushes fit

theorem unary (hx : Pushes σ 1 xs) (pops : op.pops = 1) (pushes : op.pushes = 1)
    (operands : op.operands = []) : Pushes σ 1 (xs ++ [.op op]) :=
  .compute (n := 0) (by rwa [pops]) pushes (by rw [OperandsFit, operands]; exact .nil)

theorem binary (hx : Pushes σ 1 xs) (hy : Pushes σ 1 ys) (pops : op.pops = 2)
    (pushes : op.pushes = 1) (operands : op.operands = []) :
    Pushes σ 1 (xs ++ ys ++ [.op op]) :=
  .compute (n := 0) (by rw [pops]; exact hx.append hy) pushes
    (by rw [OperandsFit, operands]; exact .nil)

theorem placed_eq_nil (h : Pushes σ n xs) : placed xs = [] := by
  induction h with
  | nil => rfl
  | compute _ _ _ ih => rw [placed_append, ih]; rfl

theorem forall_scoped (h : Pushes σ n xs) : ∀ i ∈ xs, i.Scoped σ := by
  induction h with
  | nil => simp
  | compute _ _ fit ih => exact List.forall_mem_append.mpr ⟨ih, List.forall_mem_singleton.mpr fit⟩

end Pushes

namespace Balanced

variable {xs : List Instruction} {op : Opcode} {operands : List Operand}

/-- One instruction that does not use the stack. -/
theorem single (pops : op.pops = 0) (acts : op.acts = true) (fit : OperandsFit σ op operands) :
    Balanced σ [.code op operands] :=
  @Balanced.act σ op operands [] (by rw [pops]; exact .nil) acts fit

theorem forall_scoped (h : Balanced σ xs) : ∀ i ∈ xs, i.Scoped σ := by
  induction h with
  | nil => simp
  | append _ _ ihx ihy => exact List.forall_mem_append.mpr ⟨ihx, ihy⟩
  | label name => simp [Instruction.Scoped]
  | text bytes => simp [Instruction.Scoped]
  | array name one_le le => simpa [Instruction.Scoped] using ⟨one_le, le⟩
  | act pushed _ fit => exact List.forall_mem_append.mpr ⟨pushed.forall_scoped,
    List.forall_mem_singleton.mpr fit⟩

end Balanced

end Gamebook
