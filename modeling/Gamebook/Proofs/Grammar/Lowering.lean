import Gamebook.Proofs.Grammar.Tokens
import Gamebook.Proofs.Grammar.Trees
import Gamebook.Proofs.Symbol.Table

/-!
# What trees come to

Reading an expression writes no code. It leads behind the tokens that it reads and records the names
in them (`State.Took`), which may be a problem with a name but makes no constant known.

What the grammar keeps of an expression is its value, and the functions that put values together are
met here with values of trees: a value is pushed by the code of its tree (`Parser.push_value`), and
operands are joined to the value of the whole tree (`Parser.join_value`,
`Parser.complement_value`).
-/

namespace Gamebook.Grammar

open Constant (Expr Operator)
open Gamebook.Symbol (Kind)

/-! ## Uses of names -/

namespace State

/-- A name is used; that may be a problem. -/
def mention (s : State) (m : Located String × Kind) : State :=
  match s.symbols.use m.1 m.2 with
  | .ok symbols => { s with symbols := symbols }
  | .error e => { s with problems := s.problems ++ [e.map .name] }

/-- Names were used and `rest` is still to come. All else is as it was. -/
def Took (s : State) (ms : List (Located String × Kind)) (rest : List Lexeme) (s' : State) : Prop :=
  ∃ place, s' = (ms.foldl mention s).behind place rest

variable {s s' s'' : State} {ms ms' : List (Located String × Kind)} {rest rest' : List Lexeme}

theorem mention_behind (s : State) (place : Location) (rest : List Lexeme)
    (m : Located String × Kind) :
    (s.behind place rest).mention m = (s.mention m).behind place rest := by
  unfold mention
  rw [behind_symbols]
  cases s.symbols.use m.1 m.2 <;> rfl

theorem foldl_mention_behind (s : State) (place : Location) (rest : List Lexeme)
    (ms : List (Located String × Kind)) :
    ms.foldl mention (s.behind place rest) = (ms.foldl mention s).behind place rest := by
  induction ms generalizing s with
  | nil => rfl
  | cons m ms ih => rw [List.foldl_cons, List.foldl_cons, mention_behind, ih]

/-- No constant becomes known by a use. -/
theorem value?_mention (s : State) (m : Located String × Kind) :
    (s.mention m).symbols.value? = s.symbols.value? := by
  unfold mention
  cases used : s.symbols.use m.1 m.2 with
  | error e => rfl
  | ok symbols =>
    funext name
    simp only [Symbol.Table.value?, Symbol.Table.declaration_use used]

namespace Took

theorem pending (h : s.Took ms rest s') : s'.pending = rest := by
  obtain ⟨place, rfl⟩ := h
  rfl

theorem value? (h : s.Took ms rest s') : s'.symbols.value? = s.symbols.value? := by
  obtain ⟨place, rfl⟩ := h
  rw [behind_symbols]
  induction ms generalizing s with
  | nil => rfl
  | cons m ms ih => rw [List.foldl_cons, ih, value?_mention]

theorem refl (h : s.pending = rest) : s.Took [] rest s := ⟨s.lastSeen, h ▸ rfl⟩

theorem behind (s : State) (place : Location) (rest : List Lexeme) :
    s.Took [] rest (s.behind place rest) := ⟨place, rfl⟩

theorem mention (h : s.pending = rest) (m : Located String × Kind) :
    s.Took [m] rest (s.mention m) := by
  refine ⟨s.lastSeen, ?_⟩
  rw [List.foldl_cons, List.foldl_nil, ← mention_behind]
  congr 1
  exact h ▸ rfl

theorem trans (h : s.Took ms rest s') (h' : s'.Took ms' rest' s'') :
    s.Took (ms ++ ms') rest' s'' := by
  obtain ⟨place, rfl⟩ := h
  obtain ⟨place', rfl⟩ := h'
  exact ⟨place', by rw [foldl_mention_behind, List.foldl_append]; rfl⟩

/-- A token that is read on the way uses no name. -/
theorem behind_trans {place : Location} (h : (s.behind place rest).Took ms rest' s') :
    s.Took ms rest' s' :=
  (Took.behind s place rest).trans h

theorem trans_behind {place : Location} (h : s.Took ms rest s') :
    s.Took ms rest' (s'.behind place rest') := by
  simpa using h.trans (.behind s' place rest')

end Took

end State

/-! ## Constants and code -/

namespace Tree

variable {lookup : String → Option Int64} {t a b : Tree}

theorem code_of_expr? {e : Expr} (h : t.expr? lookup = some e) :
    t.code lookup = [.code .PUSH_D [constantOperand lookup e]] := by
  cases t with
  | number | constant | colours | complement | binary =>
    rw [code, h]
    rfl
  | _ => simp [expr?] at h

theorem value_of_expr? {e : Expr} (h : t.expr? lookup = some e) :
    t.value lookup = .constant e := by
  simp [value, h]

theorem value_of_expr?_none (h : t.expr? lookup = none) :
    t.value lookup = .runtime (t.code lookup) := by
  simp [value, h]

theorem expr?_of_value {e : Expr} (h : t.value lookup = .constant e) :
    t.expr? lookup = some e := by
  cases he : t.expr? lookup with
  | none => simp [value, he] at h
  | some e' => simpa [value, he] using h

theorem eval_of_known? {e : Expr} {v : Int64} (he : t.expr? lookup = some e)
    (known : t.known? lookup = some v) : e.eval lookup = .ok v := by
  cases hv : e.eval lookup with
  | error => simp [known?, valueOf, he, hv, Except.toOption] at known
  | ok w => simpa [known?, valueOf, he, hv, Except.toOption] using known

theorem field_of_known? {v : Int64} (known : t.known? lookup = some v) :
    t.field lookup = v.toInt.toNat.toUInt16 := by
  rw [field, fieldOf]
  rw [known?] at known
  rw [known]
  rfl

theorem KnownByte.exists_expr? (h : t.KnownByte lookup) : ∃ e, t.expr? lookup = some e := by
  obtain ⟨v, known, -⟩ := h
  obtain ⟨e, he, -⟩ := Option.bind_eq_some_iff.mp known
  exact ⟨e, he⟩

end Tree

/-! ## Values of trees -/

namespace Parser

variable {s s' : State} {t a b : Tree} {rest : List Lexeme}

theorem mention_apply (name : Located String) (kind : Kind) (s : State) :
    Parser.mention name kind s = .done () (s.mention (name, kind)) := rfl

theorem check_byte {v : Int64} (h : Tree.IsByte v) (place : Location) (s : State) :
    check .byte v place s = .done v.toInt.toNat.toUInt16 s := by
  have fits : Constant.Width.byte.check v = .ok v.toInt.toNat.toUInt16 := if_pos h
  simp only [check, fits]
  rfl

theorem immediate_value {e : Expr} (he : t.expr? s.symbols.value? = some e)
    (h : t.Pushable s.symbols.value?) (place : Location) :
    immediate ⟨e, place⟩ .byte s = .done (Tree.constantOperand s.symbols.value? e) s := by
  unfold immediate
  rcases h e he with ⟨v, hv, byte⟩ | ⟨name, hv⟩
  · have evaluated : evaluate e s = .done (.ok v) s := by simp [evaluate, hv]
    simp only [bind_of_done evaluated, bind_of_done (check_byte byte _ _)]
    simp [pure_apply, Tree.constantOperand, hv, operandOf]
  · have evaluated : evaluate e s = .done (.error (.undefined name)) s := by simp [evaluate, hv]
    simp only [bind_of_done evaluated]
    simp [pure_apply, Tree.constantOperand, hv]

theorem push_value (h : t.Pushable s.symbols.value?) (place : Location) :
    push ⟨t.value s.symbols.value?, place⟩ s = .done (t.code s.symbols.value?) s := by
  cases he : t.expr? s.symbols.value? with
  | none =>
    rw [Tree.value_of_expr?_none he]
    rfl
  | some e =>
    rw [Tree.value_of_expr? he, Tree.code_of_expr? he]
    dsimp only [push]
    rw [bind_of_done (immediate_value he h place)]
    rfl

theorem runtimeBinary_value (ha : a.Pushable s.symbols.value?) (hb : b.Pushable s.symbols.value?)
    (op : Opcode) (p q : Location) :
    runtimeBinary op ⟨a.value s.symbols.value?, p⟩ ⟨b.value s.symbols.value?, q⟩ s =
      .done ⟨.runtime (a.code s.symbols.value? ++ b.code s.symbols.value? ++ [.op op]), p.span q⟩
        s := by
  rw [runtimeBinary, bind_of_done (push_value ha p), bind_of_done (push_value hb q)]
  rfl

/-- A constant that is known and fits. -/
theorem foldNow_known {v : Int64} {e : Expr} (he : t.expr? s.symbols.value? = some e)
    (known : t.known? s.symbols.value? = some v) (byte : Tree.IsByte v) (place : Location) :
    foldNow ⟨e, place⟩ .byte s = .done (some v.toInt.toNat.toUInt16) s := by
  have value : e.eval s.symbols.value? = .ok v := Tree.eval_of_known? he known
  have known : Parser.known ⟨e, place⟩ s = .done v s := by
    have evaluated : evaluate e s = .done (.ok v) s := by simp [evaluate, value]
    rw [Parser.known, bind_of_done evaluated]
    rfl
  have fits : Constant.Width.byte.check v = .ok v.toInt.toNat.toUInt16 := if_pos byte
  rw [foldNow, bind_of_done known, fits]
  rfl

end Parser

namespace BinaryOperator

/-- How the operands of the operator are joined. -/
def join : BinaryOperator → Join
  | or => Parser.runtimeBinary .OR
  | and => Parser.runtimeBinary .AND
  | bitOr => Parser.arithmetic .or
  | bitAnd => Parser.arithmetic .and
  | shiftLeft => Parser.arithmetic .shiftLeft
  | shiftRight => Parser.arithmetic .shiftRight
  | add => Parser.arithmetic .add
  | sub => Parser.arithmetic .sub
  | mul => Parser.arithmetic .mul
  | div => Parser.arithmetic .div

variable {op : BinaryOperator}

theorem join_of_arithmetic? {o : Operator} (h : op.arithmetic? = some o) :
    op.join = Parser.arithmetic o ∧ stackOpcode? o = op.opcode? := by
  cases op <;> cases h <;> exact ⟨rfl, rfl⟩

theorem join_of_arithmetic?_none (h : op.arithmetic? = none) :
    ∃ opcode, op.opcode? = some opcode ∧ op.join = Parser.runtimeBinary opcode := by
  cases op <;> first | exact ⟨_, rfl, rfl⟩ | contradiction

end BinaryOperator

namespace Parser

variable {s s' : State} {a b : Tree} {op : BinaryOperator}

theorem complement_value (lookup : String → Option Int64) (t : Tree) (place : Location)
    (s : State) :
    complement ⟨t.value lookup, place⟩ s = .done ((Tree.complement t).value lookup) s := by
  cases he : t.expr? lookup with
  | some e =>
    rw [Tree.value_of_expr? he, Tree.value_of_expr? (e := e.unary .not) (by simp [Tree.expr?, he])]
    rfl
  | none =>
    have none : (Tree.complement t).expr? lookup = none := by simp [Tree.expr?, he]
    rw [Tree.value_of_expr?_none he, Tree.value_of_expr?_none none, Tree.code, none]
    rfl

theorem arithmetic_of_runtime {o : Operator} {opcode : Opcode} {lhs rhs : Located Value}
    (runtime : ∀ x y, lhs.value = .constant x → rhs.value ≠ .constant y)
    (h : stackOpcode? o = some opcode) :
    arithmetic o lhs rhs = runtimeBinary opcode ⟨lhs.value, lhs.place.span rhs.place⟩
      ⟨rhs.value, lhs.place.span rhs.place⟩ := by
  unfold arithmetic
  dsimp only
  split
  · next x y hx hy => exact absurd hy (runtime x y hx)
  · rw [h]

/-- Operands that are joined come to what the whole comes to. -/
theorem join_value (h : (Tree.binary op a b).Lowers s.symbols.value?) (p q : Location) :
    ∃ place, op.join ⟨a.value s.symbols.value?, p⟩ ⟨b.value s.symbols.value?, q⟩ s =
      .done ⟨(Tree.binary op a b).value s.symbols.value?, place⟩ s := by
  cases he : (Tree.binary op a b).expr? s.symbols.value? with
  | some e =>
    simp only [Tree.expr?, Option.bind_eq_bind, Option.bind_eq_some_iff] at he
    obtain ⟨o, ho, x, hx, y, hy, he⟩ := he
    obtain rfl := Option.some.inj he
    refine ⟨p.span q, ?_⟩
    rw [(BinaryOperator.join_of_arithmetic? ho).1, Tree.value_of_expr? hx, Tree.value_of_expr? hy,
      Tree.value_of_expr? (e := x.binary o y) (by simp [Tree.expr?, ho, hx, hy])]
    rfl
  | none =>
    obtain ⟨isSome, ha, hb⟩ := h.2.resolve_left (by simp [he])
    obtain ⟨opcode, hop⟩ := Option.isSome_iff_exists.mp isSome
    have code : (Tree.binary op a b).value s.symbols.value? =
        .runtime (a.code s.symbols.value? ++ b.code s.symbols.value? ++ [.op opcode]) := by
      rw [Tree.value_of_expr?_none he, Tree.code, he, hop]
      rfl
    rw [code]
    cases ho : op.arithmetic? with
    | none =>
      obtain ⟨opcode', hop', join⟩ := BinaryOperator.join_of_arithmetic?_none ho
      obtain rfl := Option.some.inj (hop.symm.trans hop')
      exact ⟨_, by rw [join, runtimeBinary_value ha hb]⟩
    | some o =>
      obtain ⟨join, stack⟩ := BinaryOperator.join_of_arithmetic? ho
      -- if both were constants, so would be the whole
      have runtime : ∀ x y, a.value s.symbols.value? = .constant x →
          b.value s.symbols.value? ≠ .constant y := fun x y hx hy => by
        simp [Tree.expr?, ho, Tree.expr?_of_value hx, Tree.expr?_of_value hy] at he
      exact ⟨_, by rw [join, arithmetic_of_runtime runtime (stack.trans hop),
        runtimeBinary_value ha hb]⟩

end Parser

end Gamebook.Grammar
