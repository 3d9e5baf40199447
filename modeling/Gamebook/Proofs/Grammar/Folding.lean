import Gamebook.Proofs.Constant.Stability
import Gamebook.Proofs.Grammar.Operands
import Gamebook.Proofs.Grammar.Tokens
import Gamebook.Proofs.Memory.Capacity

/-!
# When constants are computed

A constant becomes an operand in one of two ways. If all its names are declared by then, reading
computes it and checks that it fits; otherwise the expression itself is kept, and it is computed and
checked when the program is placed in memory. The two do the same at different times, with different
names known and in different ways of failing, and the width that is checked comes from the statement
in the one case and from the opcode in the other.

`emits_iff` says that none of this matters: whatever is declared when the constant is read, it ends
up in memory exactly if it has a value in the end and the value fits, and it is this value that ends
up there. `operand_folds_alike` adds that an expression kept for later always stands where the
opcode asks for the width it was read with.
-/

namespace Gamebook

namespace Constant.Width

/-- The value fits the width. -/
def Holds (w : Width) (v : Int64) : Prop := 0 ≤ v.toInt ∧ v.toInt ≤ w.max

instance (w : Width) (v : Int64) : Decidable (w.Holds v) := inferInstanceAs (Decidable (_ ∧ _))

theorem check_eq (w : Width) (v : Int64) :
    w.check v = if w.Holds v then .ok v.toInt.toNat.toUInt16 else .error (.outOfRange v w) := rfl

theorem max_lt (w : Width) : w.max < 65536 := by cases w <;> decide

/-- A value that fits is not changed by making it a word. -/
theorem Holds.toNat {w : Width} {v : Int64} (h : w.Holds v) :
    v.toInt.toNat.toUInt16.toNat = v.toInt.toNat := by
  have low := h.1
  have high := h.2
  have limit := w.max_lt
  exact Memory.toNat_toUInt16 (by omega)

end Constant.Width

namespace Memory

/-- The bytes of a number in the given width. -/
def widthBytes : Constant.Width → Nat → List UInt8
  | .byte, n => [n.toUInt8]
  | .word, n => wordBytes n

/-- The number that bytes stand for, the low one first. -/
def littleEndian : List UInt8 → Nat
  | [] => 0
  | b :: bs => b.toNat + 256 * littleEndian bs

theorem length_widthBytes (w : Constant.Width) (n : Nat) :
    (widthBytes w n).length = (shapeOf w).size := by cases w <;> rfl

/-- The bytes of a number stand for it. -/
theorem littleEndian_widthBytes {w : Constant.Width} {v : Int64} (h : w.Holds v) :
    (littleEndian (widthBytes w v.toInt.toNat) : Int) = v.toInt := by
  have low := h.1
  have high := h.2
  cases w with
  | byte =>
    have small : v.toInt.toNat < 256 := by
      change v.toInt ≤ 0xFF at high
      omega
    simp only [widthBytes, littleEndian, toNat_toUInt8 small]
    omega
  | word =>
    have small : v.toInt.toNat < 65536 := by
      change v.toInt ≤ 0xFFFF at high
      omega
    simp only [widthBytes, wordBytes, littleEndian, Nat.toUInt8, UInt8.toNat_ofNat']
    omega

namespace Context

variable {c : Context} {w : Constant.Width}

/-- An operand that was computed is written as it is. -/
theorem operand_operandOf (c : Context) (opcode : Opcode) (w : Constant.Width) {v : Int64}
    (h : w.Holds v) :
    c.operand opcode (shapeOf w) (Grammar.operandOf w v.toInt.toNat.toUInt16) =
      .ok (widthBytes w v.toInt.toNat) := by
  cases w with
  | byte =>
    have same : v.toInt.toNat.toUInt16.toUInt8 = v.toInt.toNat.toUInt8 := by
      apply UInt8.toNat.inj
      rw [UInt16.toNat_toUInt8, h.toNat, Nat.toUInt8, UInt8.toNat_ofNat']
    simp only [shapeOf, Grammar.operandOf, Grammar.byteOperand, operand, widthBytes, same]
  | word => simp only [shapeOf, Grammar.operandOf, operand, widthBytes, h.toNat]

/-- An operand that was kept for later is computed with the names there are then. -/
theorem operand_constant_eq_ok {opcode : Opcode} {e : Constant.Expr} {bytes : List UInt8} :
    c.operand opcode (shapeOf w) (.constant e w) = .ok bytes ↔
      ∃ v, e.eval c.symbols.value? = .ok v ∧ w.Holds v ∧
        bytes = widthBytes w v.toInt.toNat := by
  have form : c.operand opcode (shapeOf w) (.constant e w) =
      (c.constant w e).map (widthBytes w) := by
    cases w <;> (change (c.constant _ e >>= _) = _; cases c.constant _ e <;> rfl)
  rw [form, constant, Constant.Expr.evalAs]
  cases e.eval c.symbols.value? with
  | error error => simp [bind, Except.bind, Except.map]
  | ok v =>
    simp only [bind, Except.bind, Constant.Width.check_eq]
    by_cases h : w.Holds v
    · simp only [if_pos h, Except.map, h.toNat]
      simp [h, eq_comm]
    · simp [h, Except.map]

end Context

end Memory

namespace Grammar

open Constant (Expr Width EvalError)
open Memory (Context widthBytes littleEndian)

namespace Parser

variable {s : State} {e : Located Expr} {width : Width} {v : Int64}

/-! ## Constants as operands -/

theorem evaluate_apply (h : e.value.eval s.symbols.value? ≠ .error .quotientOverflow) :
    evaluate e.value s = .done (e.value.eval s.symbols.value?) s := by
  unfold evaluate
  split
  · next overflow => exact absurd overflow h
  · rfl

theorem known_eq_done {s' : State} :
    known e s = .done v s' ↔ e.value.eval s.symbols.value? = .ok v ∧ s' = s := by
  by_cases overflow : e.value.eval s.symbols.value? = .error .quotientOverflow
  · simp [known, bind_apply, evaluate, overflow]
  rw [known, bind_of_done (evaluate_apply overflow)]
  cases e.value.eval s.symbols.value? with
  | ok w => simp [pure_apply, eq_comm]
  | error error => cases error <;> simp [Parser.fail]

theorem check_of_holds (place : Location) (h : width.Holds v) :
    check width v place s = .done v.toInt.toNat.toUInt16 s := by
  rw [check, Constant.Width.check_eq, if_pos h]
  rfl

/-- A value that does not fit is a problem. -/
theorem check_of_not_holds (place : Location) (h : ¬ width.Holds v) :
    ∃ s', check width v place s = .done 0 s' ∧ s'.problems ≠ s.problems := by
  rw [check, Constant.Width.check_eq, if_neg h]
  exact ⟨_, rfl, by simp⟩

/-- What is known by now is made an operand if it fits. -/
theorem immediate_of_holds (h : e.value.eval s.symbols.value? = .ok v) (fits : width.Holds v) :
    immediate e width s = .done (operandOf width v.toInt.toNat.toUInt16) s := by
  rw [immediate, bind_of_done (evaluate_apply (by simp [h])), h]
  change (check width v e.place >>= _) s = _
  rw [bind_of_done (check_of_holds e.place fits)]
  rfl

theorem immediate_of_undefined {name : String}
    (h : e.value.eval s.symbols.value? = .error (.undefined name)) :
    immediate e width s = .done (.constant e.value width) s := by
  rw [immediate, bind_of_done (evaluate_apply (by simp [h])), h]
  rfl

/-- Anything else is a problem at once, or ends reading. -/
theorem problems_of_immediate {x : Operand} {s' : State}
    (known : ∀ name, e.value.eval s.symbols.value? ≠ .error (.undefined name))
    (none : ∀ v, e.value.eval s.symbols.value? = .ok v → ¬ width.Holds v)
    (run : immediate e width s = .done x s') : s'.problems ≠ s.problems := by
  cases h : e.value.eval s.symbols.value? with
  | ok v =>
    obtain ⟨s'', checked, wrong⟩ := check_of_not_holds (s := s) e.place (none v h)
    rw [immediate, bind_of_done (evaluate_apply (by simp [h])), h] at run
    change (check width v e.place >>= _) s = _ at run
    rw [bind_of_done checked] at run
    cases run
    exact wrong
  | error error =>
    by_cases overflow : error = .quotientOverflow
    · subst overflow
      simp [immediate, bind_apply, evaluate, h] at run
    · rw [immediate, bind_of_done (evaluate_apply (by simpa [h] using overflow)), h] at run
      cases error with
      | undefined name => exact absurd h (known name)
      | _ =>
        cases run
        simp

end Parser

/-- Nothing is found wrong with the constant when it is read in the state `s`, and what it is made
then has these bytes with the names of `c`. -/
def Emits (s : State) (e : Located Expr) (width : Width) (c : Context) (opcode : Opcode)
    (bytes : List UInt8) : Prop :=
  ∃ x s', Parser.immediate e width s = .done x s' ∧ s'.problems = s.problems ∧
    c.operand opcode (shapeOf width) x = .ok bytes

/-- A constant ends up in memory if it has a value in the end and the value fits. -/
theorem emits_iff {s : State} {e : Located Expr} {width : Width} {c : Context} {opcode : Opcode}
    {bytes : List UInt8} (later : s.symbols.Precedes c.symbols) :
    Emits s e width c opcode bytes ↔
      ∃ v, e.value.eval c.symbols.value? = .ok v ∧ width.Holds v ∧
        bytes = widthBytes width v.toInt.toNat := by
  by_cases missing : ∃ name, e.value.eval s.symbols.value? = .error (.undefined name)
  · -- Some name is not declared yet: all is left to the end.
    obtain ⟨name, h⟩ := missing
    have run : Parser.immediate e width s = .done (.constant e.value width) s :=
      Parser.immediate_of_undefined h
    constructor
    · rintro ⟨x, s', run', -, written⟩
      rw [run] at run'
      cases run'
      exact Context.operand_constant_eq_ok.mp written
    · intro value
      exact ⟨_, s, run, rfl, Context.operand_constant_eq_ok.mpr value⟩
  · -- Otherwise what there is to know is known, and it is the same in the end.
    have settled : e.value.eval c.symbols.value? = e.value.eval s.symbols.value? :=
      (Expr.eval_settles later e.value).resolve_right missing
    rw [settled]
    constructor
    · rintro ⟨x, s', run, fine, written⟩
      by_cases fits : ∃ v, e.value.eval s.symbols.value? = .ok v ∧ width.Holds v
      · obtain ⟨v, h, holds⟩ := fits
        rw [Parser.immediate_of_holds h holds] at run
        cases run
        rw [Context.operand_operandOf c opcode width holds] at written
        exact ⟨v, h, holds, (Except.ok.inj written).symm⟩
      · push Not at fits
        have known : ∀ name, e.value.eval s.symbols.value? ≠ .error (.undefined name) :=
          fun name h => missing ⟨name, h⟩
        exact absurd fine (Parser.problems_of_immediate known fits run)
    · rintro ⟨v, h, holds, rfl⟩
      exact ⟨_, s, Parser.immediate_of_holds h holds, rfl,
        Context.operand_operandOf c opcode width holds⟩

/-- Where a statement has a constant of any value: the opcode, the operand and its width. -/
def immediateSites : List (Opcode × Nat × Width) :=
  [(.PUSH_D, 0, .byte), (.TAB, 0, .byte), (.PAGEPAUSE, 0, .byte), (.NEWLINE, 0, .byte),
    (.BACKSPACE, 0, .byte), (.REPCHAR, 0, .byte), (.REPCHAR, 1, .byte), (.WAIT, 0, .word),
    (.PAUSE, 0, .word), (.TYPERATE, 0, .word), (.PUSH_INKEY, 0, .byte), (.PUSH_RANDOM, 0, .byte),
    (.CHOOSE_W, 0, .word), (.POP_SLOT_SAVE, 1, .byte), (.RAMSAVE, 1, .byte), (.RAMLOAD, 1, .byte)]

/-- A constant that was kept for later stands where its opcode asks for the width it was read
with. -/
theorem Accepted.Complete.deferred_shape {T : Accepted} (h : T.Complete) {op : Opcode}
    {xs : List Operand} {i : Nat} {e : Expr} {w : Width}
    (mem : .code op xs ∈ Fusion.optimize T.state.code) (kept : xs[i]? = some (.constant e w)) :
    op.operands[i]? = some (shapeOf w) := by
  have fits : OperandsFit T.scope op xs := h.encodable.optimize.fit _ mem
  obtain ⟨lt, there⟩ := List.getElem?_eq_some_iff.mp kept
  have lt' : i < op.operands.length := fits.length_eq ▸ lt
  have fit : (xs[i]).Fits T.scope (op.operands[i]) := fits.get lt' lt
  rw [List.getElem?_eq_getElem lt']
  generalize op.operands[i] = shape at fit
  rw [there] at fit
  cases fit with
  | constant form _ => rw [form]

/-- It does not matter when a constant is computed. Let it be read when some constants are declared
and placed in memory when these and perhaps more are. Then nothing is wrong with it exactly if in
the end it has a value that fits its width, the bytes it takes in memory stand for this value, and
all this is the same wherever else it is read. The width is that of the opcode: at all operands that
statements make of constants, and wherever the code of a script that is accepted holds a constant
not computed yet. -/
theorem operand_folds_alike (e : Located Expr) (width : Width) {s : State} {c : Context}
    (later : s.symbols.Precedes c.symbols) (opcode : Opcode) :
    ((∃ bytes, Emits s e width c opcode bytes) ↔
      ∃ v, e.value.eval c.symbols.value? = .ok v ∧ width.Holds v) ∧
    (∀ bytes v, Emits s e width c opcode bytes → e.value.eval c.symbols.value? = .ok v →
      bytes.length = (shapeOf width).size ∧ (littleEndian bytes : Int) = v.toInt) ∧
    (∀ (t : State) (place : Location), t.symbols.Precedes c.symbols → ∀ bytes,
      Emits t ⟨e.value, place⟩ width c opcode bytes ↔ Emits s e width c opcode bytes) ∧
    (∀ site ∈ immediateSites, site.1.operands[site.2.1]? = some (shapeOf site.2.2)) ∧
    ∀ (tokens : List Lexeme) (o : Options) (reading : Reading) (program : Program),
      read tokens = some reading → reading.accept o = .ok program →
        ∀ (op : Opcode) (xs : List Operand) (i : Nat) (kept : Expr) (w : Width),
          .code op xs ∈ Fusion.optimize program.code → xs[i]? = some (.constant kept w) →
            op.operands[i]? = some (shapeOf w) := by
  refine ⟨⟨?_, ?_⟩, ?_, ?_, by decide, ?_⟩
  · rintro ⟨bytes, emitted⟩
    obtain ⟨v, value, holds, -⟩ := (emits_iff later).mp emitted
    exact ⟨v, value, holds⟩
  · rintro ⟨v, value, holds⟩
    exact ⟨_, (emits_iff later).mpr ⟨v, value, holds, rfl⟩⟩
  · intro bytes v emitted value
    obtain ⟨v', value', holds, rfl⟩ := (emits_iff later).mp emitted
    obtain rfl : v' = v := Except.ok.inj (value'.symm.trans value)
    exact ⟨Memory.length_widthBytes width _, Memory.littleEndian_widthBytes holds⟩
  · intro t place later' bytes
    rw [emits_iff later', emits_iff later]
  · intro tokens o reading program hread haccept op xs i kept w mem there
    obtain ⟨T, rfl, complete⟩ := complete_of_accept hread haccept
    exact complete.deferred_shape mem there

/-- A constant that is declared behind its use. -/
def lateTable : Symbol.Table := ⟨[⟨"RATE", some (.nowhere, .constant 200), []⟩]⟩

/-- Twice the constant, which does not fit a byte. -/
def doubledRate : Located Expr := ⟨.binary (.named "RATE") .shiftLeft (.value 1), .nowhere⟩

theorem operand_folds_alike_doubledRate :
    (State.start []).symbols.Precedes lateTable ∧
      (∃ bytes, Emits (State.start []) doubledRate .word ⟨lateTable, [], []⟩ .WAIT bytes ∧
        bytes.length = 2 ∧ (littleEndian bytes : Int) = 400) ∧
      ¬ ∃ bytes, Emits (State.start []) doubledRate .byte ⟨lateTable, [], []⟩ .TAB bytes := by
  have declared : Symbol.Table.empty.declare ⟨"RATE", .nowhere⟩ (.constant 200) =
      .ok lateTable := by decide
  have later : (State.start []).symbols.Precedes lateTable :=
    Symbol.Table.Run.precedes (.single (.declare declared))
  have value : doubledRate.value.eval lateTable.value? = .ok 400 := by decide
  obtain ⟨accepted, written, -⟩ :=
    operand_folds_alike doubledRate .word (c := ⟨lateTable, [], []⟩) later .WAIT
  obtain ⟨refused, -⟩ :=
    operand_folds_alike doubledRate .byte (c := ⟨lateTable, [], []⟩) later .TAB
  obtain ⟨bytes, emitted⟩ := accepted.mpr ⟨400, value, by decide⟩
  refine ⟨later, ⟨bytes, emitted, written bytes 400 emitted value⟩, fun emits => ?_⟩
  obtain ⟨v, value', holds⟩ := refused.mp emits
  obtain rfl : 400 = v := Except.ok.inj (value.symm.trans value')
  exact absurd holds (by decide)

end Grammar

end Gamebook
