import Gamebook.Grammar.Value
import Gamebook.Proofs.Grammar.Primitives

/-!
# Values that are in order

The value of an expression is a constant put together from numbers and names of constants, or code
that leaves exactly one value on the stack, and in both cases all names stand for what they are
taken for (`Value.Scoped`). From such values come operands that fit (`immediate_reads`), code that
pushes them (`push_reads`, `pushAll_reads`) and again such values (`arithmetic_reads`).

Where something is wrong with a value, another one stands in for it. By then a problem has been
reported, so nothing has to be shown of what stands in.
-/

namespace Gamebook.Grammar

open Constant (Expr Width Operator)

/-- A constant with its names in order, or code that pushes one value. -/
def Value.Scoped (σ : Scope) : Value → Prop
  | .constant e => e.Scoped σ
  | .runtime code => Pushes σ 1 code

/-- The opcode takes two values from the stack and leaves one. -/
structure IsBinary (op : Opcode) : Prop where
  pops : op.pops = 2
  pushes : op.pushes = 1
  operands : op.operands = []

theorem isBinary_of_stackOpcode? {op : Operator} {opcode : Opcode}
    (h : stackOpcode? op = some opcode) : IsBinary opcode := by
  cases op <;> simp only [stackOpcode?, Option.some.injEq, reduceCtorEq] at h <;>
    exact h ▸ ⟨rfl, rfl, rfl⟩

theorem byteOperand_fits {σ : Scope} {shape : OperandShape} (value : UInt16)
    (h : shape ≠ .address) : (byteOperand value).Fits σ shape := .literal _ h

namespace Parser

variable {T : Accepted} {C : Prop}

/-! ## Values -/

theorem evaluate_blind (e : Expr) : Blind (evaluate e) := by
  refine .of_eq fun s => ?_
  have symbols : s.fresh.symbols = s.symbols := rfl
  unfold evaluate
  rw [symbols]
  cases e.eval s.symbols.value? with
  | ok value => exact ⟨pure (.ok value), .pure _, rfl, rfl⟩
  | error problem =>
    cases problem with
    | quotientOverflow =>
      exact ⟨fun _ => .overflowed, ⟨fun _ => rfl, fun _ => List.forall_mem_nil _⟩, rfl, rfl⟩
    | _ => exact ⟨pure (.error _), .pure _, rfl, rfl⟩

theorem evaluate_follows (e : Expr) : Follows T (evaluate e) := by
  intro _ s s' a t twin run _
  have values : s'.symbols.value? = s.symbols.value? := twin.symbols.value?
  unfold evaluate at run ⊢
  rw [values]
  split at run
  · contradiction
  · cases run
    exact ⟨s', rfl, twin, .of_eq rfl rfl⟩

theorem evaluate_reads (e : Expr) : Reads T C (evaluate e) fun _ => True := by
  refine ⟨fun s => ?_, fun _ => evaluate_blind e, evaluate_follows e⟩
  have runs : evaluate e s = .overflowed ∨ ∃ result, evaluate e s = .done result s := by
    unfold evaluate
    split
    · exact .inl rfl
    · exact .inr ⟨_, rfl⟩
  rcases runs with h | ⟨result, h⟩
  · rw [h]
    trivial
  · rw [h]
    exact ⟨.refl s, fun _ _ => ⟨.refl s, trivial⟩⟩

theorem check_reads (width : Width) (value : Int64) (place : Location) :
    Reads T C (check width value place) fun _ => True := by
  unfold check
  split
  · exact .pure fun _ => trivial
  · exact report_bind (by simp) (.pure fun _ => trivial)

theorem immediate_reads (e : Located Expr) (width : Width) :
    Reads T (e.value.Scoped T.scope) (immediate e width)
      (Operand.Fits T.scope (shapeOf width)) := by
  refine (evaluate_reads e.value).bind fun result => ?_
  split
  · refine (check_reads width _ e.place).map fun value _ _ => ?_
    cases width with
    | byte => exact byteOperand_fits value (by simp [shapeOf])
    | word => exact .word value
  · exact .pure fun h => .constant rfl h.1
  · exact report_bind (by simp) (.pure fun _ => trivial)

theorem known_reads (e : Located Expr) : Reads T C (known e) fun _ => True := by
  refine (evaluate_reads e.value).bind fun result => ?_
  split
  · exact .pure fun _ => trivial
  · exact .fail (by simp)
  · exact .fail (by simp)

theorem foldNow_reads (e : Located Expr) (width : Width) :
    Reads T C (foldNow e width) fun value => value.isSome = true := by
  refine (known_reads e).bind fun value => ?_
  split
  · exact .pure fun _ => rfl
  · exact report_bind (by simp) (.pure fun _ => trivial)

theorem push_reads (v : Located Value) :
    Reads T (v.value.Scoped T.scope) (push v) (Pushes T.scope 1) := by
  unfold push
  split
  · next code hv => exact .pure fun h => by rwa [hv] at h
  · next e hv =>
    have operand := (immediate_reads (T := T) ⟨e, v.place⟩ .byte).given
      fun h : v.value.Scoped T.scope => by rwa [hv] at h
    exact operand.map fun x _ fits => .single rfl rfl (.cons fits .nil)

theorem pushAll_reads (vs : List (Located Value)) :
    Reads T (∀ v ∈ vs, v.value.Scoped T.scope) (pushAll vs) (Pushes T.scope vs.length) := by
  induction vs with
  | nil => exact .pure fun _ => .nil
  | cons v vs ih =>
    refine ((push_reads v).given fun h => h v List.mem_cons_self).bind fun first => ?_
    refine (ih.given fun h w hw => h.1 w (List.mem_cons_of_mem v hw)).map fun rest h pushed => ?_
    rw [List.length_cons, Nat.add_comm]
    exact h.2.append pushed

theorem foldAll_reads (vs : List (Located Value)) :
    Reads T C (foldAll vs) fun r => ∀ values ∈ r, values.length = vs.length := by
  induction vs generalizing C with
  | nil => exact .pure fun _ => by simp
  | cons v vs ih =>
    unfold foldAll
    split
    · exact .pure fun _ => by simp
    · refine (evaluate_reads _).bind fun value => ?_
      cases value with
      | error e => exact .pure fun _ => by simp
      | ok value =>
        refine ih.map fun r _ h => ?_
        cases r with
        | none => simp
        | some values => simpa using h values rfl

theorem checkBytes_reads (vs : List (Located Int64)) :
    Reads T C (checkBytes vs) fun bytes => bytes.length = vs.length := by
  induction vs generalizing C with
  | nil => exact .pure fun _ => rfl
  | cons v vs ih =>
    refine (check_reads _ _ _).bind fun first => ih.map fun rest _ h => ?_
    rw [List.length_cons, List.length_cons, h]

theorem foldBytes_reads (vs : List (Located Value)) :
    Reads T C (foldBytes vs) fun r => ∀ bytes ∈ r, bytes.length = vs.length := by
  refine (foldAll_reads vs).bind fun r => ?_
  cases r with
  | none => exact .pure fun _ => by simp
  | some values =>
    refine (checkBytes_reads values).map fun bytes h length_eq => ?_
    simpa [length_eq] using h.2 values rfl

theorem runtimeBinary_reads {op : Opcode} (hop : IsBinary op) (lhs rhs : Located Value) :
    Reads T (lhs.value.Scoped T.scope ∧ rhs.value.Scoped T.scope) (runtimeBinary op lhs rhs)
      fun v => v.value.Scoped T.scope := by
  refine ((push_reads lhs).given And.left).bind fun left => ?_
  refine ((push_reads rhs).given fun h => h.1.2).map fun right h pushed => ?_
  exact h.2.binary pushed hop.pops hop.pushes hop.operands

theorem arithmetic_reads {op : Operator} (hop : op.arity ≠ 1) (lhs rhs : Located Value) :
    Reads T (lhs.value.Scoped T.scope ∧ rhs.value.Scoped T.scope) (arithmetic op lhs rhs)
      fun v => v.value.Scoped T.scope := by
  unfold arithmetic
  dsimp only
  split
  · next a b ha hb =>
    refine .pure fun h => ?_
    rw [ha, hb] at h
    exact .binary h.1 hop h.2
  · next ha hb _ =>
    split
    · next opcode hopcode =>
      exact runtimeBinary_reads (isBinary_of_stackOpcode? hopcode)
        ⟨lhs.value, lhs.place.span rhs.place⟩ ⟨rhs.value, lhs.place.span rhs.place⟩
    · exact .fail (by simp)

end Parser

end Gamebook.Grammar
