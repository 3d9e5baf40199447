import Gamebook.Grammar.Expression
import Gamebook.Proofs.Grammar.Values

/-!
# Expressions that are in order

Every expression comes to a value that is in order (`expression_reads`). The readers of expressions
take the reader of what stands between operators as an argument, and each of them finds such values
if its argument does. This holds in particular of the reader of what stands between operators one
level of nesting further out (`primaryFrom_reads`), and so, by induction on the depth, at any depth
(`primary_reads`).
-/

namespace Gamebook.Grammar

open Constant (Expr Width Operator)

theorem isBinary_of_comparison? {t : Token} {opcode : Opcode} (h : comparison? t = some opcode) :
    IsBinary opcode := by
  unfold comparison? at h
  split at h <;> simp only [Option.some.injEq, reduceCtorEq] at h <;> exact h ▸ ⟨rfl, rfl, rfl⟩

theorem isBinary_of_pairing? {k : Keyword} {opcode : Opcode} (h : pairing? k = some opcode) :
    IsBinary opcode := by
  unfold pairing? at h
  split at h <;> simp only [Option.some.injEq, reduceCtorEq] at h <;> exact h ▸ ⟨rfl, rfl, rfl⟩

/-- Every question leaves its answer on the stack. -/
theorem pushes_of_query? {σ : Scope} {k : Keyword} {i : Instruction} (h : query? k = some i) :
    Pushes σ 1 [i] := by
  have literal (byte : UInt8) : Pushes σ 1 [.code .PUSH_OPTION_ST [.literal byte]] :=
    .single rfl rfl (.cons (.literal byte (by simp)) .nil)
  unfold query? at h
  split at h <;> simp only [Option.some.injEq, reduceCtorEq] at h <;> subst h
  · exact .single rfl rfl .nil
  · exact .single rfl rfl .nil
  · exact .single rfl rfl .nil
  · exact .single rfl rfl .nil
  · exact literal 0
  · exact literal 1
  · exact literal 2

/-- All levels of operators that can be repeated. -/
def levels : List (Token → Option Join) :=
  [orLevel, andLevel, bitOrLevel, bitAndLevel, shiftLevel, sumLevel, productLevel]

/-- An operator works on the stack, or it is one of those that constants have too. -/
theorem join_cases {level : Token → Option Join} (mem : level ∈ levels) {t : Token} {join : Join}
    (h : level t = some join) :
    (∃ op, IsBinary op ∧ join = Parser.runtimeBinary op) ∨
      ∃ op : Operator, op.arity ≠ 1 ∧ join = Parser.arithmetic op := by
  have stack {op : Opcode} (hop : IsBinary op) (h : some (Parser.runtimeBinary op) = some join) :
      ∃ op, IsBinary op ∧ join = Parser.runtimeBinary op := ⟨op, hop, (Option.some.inj h).symm⟩
  have both {op : Operator} (hop : op.arity ≠ 1) (h : some (Parser.arithmetic op) = some join) :
      ∃ op : Operator, op.arity ≠ 1 ∧ join = Parser.arithmetic op :=
    ⟨op, hop, (Option.some.inj h).symm⟩
  simp only [levels, List.mem_cons, List.not_mem_nil, or_false] at mem
  rcases mem with rfl | rfl | rfl | rfl | rfl | rfl | rfl
  · unfold orLevel at h
    split at h
    exacts [.inl (stack ⟨rfl, rfl, rfl⟩ h), by simp at h]
  · unfold andLevel at h
    split at h
    exacts [.inl (stack ⟨rfl, rfl, rfl⟩ h), by simp at h]
  · unfold bitOrLevel at h
    split at h
    exacts [.inr (both (by decide) h), by simp at h]
  · unfold bitAndLevel at h
    split at h
    exacts [.inr (both (by decide) h), by simp at h]
  · unfold shiftLevel at h
    split at h
    exacts [.inr (both (by decide) h), .inr (both (by decide) h), by simp at h]
  · unfold sumLevel at h
    split at h
    exacts [.inr (both (by decide) h), .inr (both (by decide) h), by simp at h]
  · unfold productLevel at h
    split at h
    exacts [.inr (both (by decide) h), .inr (both (by decide) h), by simp at h]

namespace Parser

variable {T : Accepted} {C : Prop}

/-! ## Operators -/

/-- Operators join values that are in order to such a value. -/
theorem join_reads {level : Token → Option Join} (mem : level ∈ levels) {t : Token} {join : Join}
    (h : level t = some join) (lhs rhs : Located Value) :
    Reads T (lhs.value.Scoped T.scope ∧ rhs.value.Scoped T.scope) (join lhs rhs)
      fun v => v.value.Scoped T.scope := by
  rcases join_cases mem h with ⟨op, hop, rfl⟩ | ⟨op, hop, rfl⟩
  · exact runtimeBinary_reads hop lhs rhs
  · exact arithmetic_reads hop lhs rhs

section Operand

variable {operand : Parser (Located Value)}

theorem chainFrom_reads {level : Token → Option Join} (mem : level ∈ levels)
    (h : ∀ {C}, Reads T C operand fun v => v.value.Scoped T.scope) (fuel : Nat)
    (lhs : Located Value) :
    Reads T (lhs.value.Scoped T.scope) (chainFrom operand level fuel lhs)
      fun v => v.value.Scoped T.scope := by
  induction fuel generalizing lhs with
  | zero => exact .pure id
  | succ fuel ih =>
    refine peek_reads.bind fun t => ?_
    split
    · exact .pure And.left
    · next join hjoin =>
      obtain ⟨token, -, hjoin⟩ := Option.bind_eq_some_iff.mp hjoin
      refine advance_reads.bind fun _ => h.bind fun rhs => ?_
      refine ((join_reads mem hjoin lhs rhs).given fun c => ⟨c.1.1.1, c.2⟩).bind fun joined => ?_
      exact (ih joined).given And.right

theorem chain_reads {level : Token → Option Join} (mem : level ∈ levels)
    (h : ∀ {C}, Reads T C operand fun v => v.value.Scoped T.scope) :
    Reads T C (chain operand level) fun v => v.value.Scoped T.scope :=
  h.bind fun first => left_reads.bind fun n =>
    (chainFrom_reads mem h n first).given fun c => c.1.2

theorem prefixed_reads {t : Token} {wrap : Located Value → Parser Value}
    (hwrap : ∀ v, Reads T (v.value.Scoped T.scope) (wrap v) (Value.Scoped T.scope))
    (h : ∀ {C}, Reads T C operand fun v => v.value.Scoped T.scope) (fuel : Nat) :
    Reads T C (prefixed t wrap operand fuel) fun v => v.value.Scoped T.scope := by
  induction fuel generalizing C with
  | zero => exact h
  | succ fuel ih =>
    refine (accept_reads t).bind fun found => ?_
    split
    · refine lastSeen_reads.bind fun start => ih.bind fun inner => ?_
      exact ((hwrap inner).given And.right).map fun _ _ hv => hv
    · exact h

theorem negate_reads (v : Located Value) :
    Reads T (v.value.Scoped T.scope) (negate v) (Value.Scoped T.scope) :=
  (push_reads v).map fun _ _ pushed => pushed.unary rfl rfl rfl

theorem complement_reads (v : Located Value) :
    Reads T (v.value.Scoped T.scope) (complement v) (Value.Scoped T.scope) := by
  unfold complement
  split
  · next e he =>
    refine .pure fun h => ?_
    rw [he] at h
    exact .unary h rfl
  · next code hcode =>
    refine .pure fun h => ?_
    rw [hcode] at h
    exact h.unary rfl rfl rfl

theorem arithmeticOver_reads (h : ∀ {C}, Reads T C operand fun v => v.value.Scoped T.scope) :
    Reads T C (arithmeticOver operand) fun v => v.value.Scoped T.scope := by
  refine chain_reads (by simp [levels]) ?_
  refine chain_reads (by simp [levels]) ?_
  refine chain_reads (by simp [levels]) ?_
  refine chain_reads (by simp [levels]) ?_
  refine chain_reads (by simp [levels]) ?_
  exact left_reads.bind fun n => prefixed_reads complement_reads h n

theorem comparisonOver_reads (h : ∀ {C}, Reads T C operand fun v => v.value.Scoped T.scope) :
    Reads T C (comparisonOver operand) fun v => v.value.Scoped T.scope := by
  refine (arithmeticOver_reads h).bind fun lhs => peek_reads.bind fun t => ?_
  split
  · exact .pure fun c => c.1.2
  · next opcode hopcode =>
    obtain ⟨token, -, hopcode⟩ := Option.bind_eq_some_iff.mp hopcode
    refine advance_reads.bind fun _ => (arithmeticOver_reads h).bind fun rhs => ?_
    exact (runtimeBinary_reads (isBinary_of_comparison? hopcode) lhs rhs).given
      fun c => ⟨c.1.1.1.2, c.2⟩

theorem expressionOver_reads (h : ∀ {C}, Reads T C operand fun v => v.value.Scoped T.scope) :
    Reads T C (expressionOver operand) fun v => v.value.Scoped T.scope := by
  refine chain_reads (by simp [levels]) (chain_reads (by simp [levels]) ?_)
  exact left_reads.bind fun n => prefixed_reads negate_reads (comparisonOver_reads h) n

theorem constantOver_reads (h : ∀ {C}, Reads T C operand fun v => v.value.Scoped T.scope) :
    Reads T C (constantOver operand) fun e => e.value.Scoped T.scope := by
  refine (arithmeticOver_reads h).bind fun v => ?_
  split
  · next e he =>
    refine .pure fun c => ?_
    have hv := c.2
    rwa [he] at hv
  · exact .fail (by simp)

/-! ## What operators stand between -/

theorem indexOver_reads (h : ∀ {C}, Reads T C operand fun v => v.value.Scoped T.scope) :
    Reads T C (indexOver operand) fun e => e.Scoped T.scope :=
  (expect_reads _ _).bind fun _ => (constantOver_reads h).bind fun _ =>
    (expect_reads _ _).bind fun _ => .pure fun c => c.1.2

theorem variableFrom_reads (t : Located Token) :
    Reads T C (variableFrom t) fun v => v.Scoped T.scope := by
  unfold variableFrom
  split
  · split
    · exact .pure fun _ => trivial
    · exact .fail (by simp)
  · exact (mention_reads _ _).bind fun _ => .pure And.right
  · exact .fail (by simp)

theorem variableOver_reads (h : ∀ {C}, Reads T C operand fun v => v.value.Scoped T.scope) :
    Reads T C (variableOver operand) fun v => v.Scoped T.scope := by
  refine (next_reads _).bind fun t => (variableFrom_reads t).bind fun v => ?_
  refine peek_reads.bind fun next => ?_
  split
  · refine (indexOver_reads h).bind fun displacement => lastSeen_reads.bind fun place => ?_
    refine (foldNow_reads _ _).bind fun n => ?_
    split
    · exact .pure fun c => c.1.1.1.1.2
    · exact .pure fun c => c.1.1.1.1.2
  · exact .pure fun c => c.1.2

theorem fieldValue_reads (name : String) (greatest : UInt16) (e : Located Expr) :
    Reads T C (fieldValue name greatest e) fun _ => True := by
  refine (foldNow_reads e _).bind fun v => ?_
  split
  · exact .pure fun _ => trivial
  · split
    · exact .pure fun _ => trivial
    · exact report_bind (by simp) (.pure fun _ => trivial)

theorem fieldsOver_reads (h : ∀ {C}, Reads T C operand fun v => v.value.Scoped T.scope)
    (fields : List (String × UInt16)) : Reads T C (fieldsOver operand fields) fun _ => True := by
  induction fields generalizing C with
  | nil => exact .pure fun _ => trivial
  | cons field fields ih =>
    refine (constantOver_reads h).bind fun e => (fieldValue_reads _ _ e).bind fun value => ?_
    split
    · exact .pure fun _ => trivial
    · exact comma_reads.bind fun _ => ih.map fun _ _ _ => trivial

theorem attributeOver_reads (h : ∀ {C}, Reads T C operand fun v => v.value.Scoped T.scope)
    (mask : Bool) : Reads T C (attributeOver operand mask) (Value.Scoped T.scope) :=
  openParen_reads.bind fun _ => (fieldsOver_reads h _).bind fun _ => closeParen_reads.bind fun _ =>
    .pure fun _ => .value _

theorem randomBetween_reads (first second : Located Expr) (place : Location) :
    Reads T C (randomBetween first second place) (Value.Scoped T.scope) := by
  refine (foldNow_reads first _).bind fun low? => (foldNow_reads second _).bind fun high? => ?_
  split
  · next low high =>
    split
    · refine .pure fun _ => ?_
      have random : Pushes T.scope 1 [.code .PUSH_RANDOM [byteOperand (high - low)]] :=
        .single rfl rfl (.cons (byteOperand_fits _ (by simp)) .nil)
      have least : Pushes T.scope 1 [.code .PUSH_D [byteOperand low]] :=
        .single rfl rfl (.cons (byteOperand_fits _ (by simp)) .nil)
      exact random.binary least rfl rfl rfl
    · exact .fail (by simp)
  · next absent =>
    -- both bounds are there, or a problem was reported
    refine .pure fun ⟨⟨_, hlow⟩, hhigh⟩ => ?_
    obtain ⟨low, rfl⟩ := Option.isSome_iff_exists.mp hlow
    obtain ⟨high, rfl⟩ := Option.isSome_iff_exists.mp hhigh
    exact (absent low high rfl rfl).elim

theorem randomOver_reads (h : ∀ {C}, Reads T C operand fun v => v.value.Scoped T.scope) :
    Reads T C (randomOver operand) (Value.Scoped T.scope) := by
  refine openParen_reads.bind fun _ => (accept_reads _).bind fun closed => ?_
  split
  · exact .pure fun _ => .single rfl rfl (.cons (.literal _ (by simp)) .nil)
  · refine (constantOver_reads h).bind fun first => (accept_reads _).bind fun more => ?_
    split
    · exact (constantOver_reads h).bind fun second => closeParen_reads.bind fun _ =>
        lastSeen_reads.bind fun _ => randomBetween_reads first second _
    · refine closeParen_reads.bind fun _ => ?_
      refine ((immediate_reads first .byte).given fun c => c.1.1.2).map fun x _ fits => ?_
      exact .single rfl rfl (.cons fits .nil)

theorem timeoutOver_reads (h : ∀ {C}, Reads T C operand fun v => v.value.Scoped T.scope) :
    Reads T C (timeoutOver operand) (Operand.Fits T.scope .byte) := by
  refine peek_reads.bind fun t => ?_
  split
  · exact .pure fun _ => .literal _ (by simp)
  · exact (constantOver_reads h).bind fun e => (immediate_reads e .byte).given And.right

/-- What stands between operators is in order if that is so one level further in. -/
theorem primaryFrom_reads (h : ∀ {C}, Reads T C operand fun v => v.value.Scoped T.scope)
    (t : Located Token) : Reads T C (primaryFrom operand t) (Value.Scoped T.scope) := by
  unfold primaryFrom
  split
  · exact .pure fun _ => .value _
  · next name _ =>
    refine peek_reads.bind fun next => ?_
    split
    · refine (mention_reads _ _).bind fun _ => (indexOver_reads h).bind fun index => ?_
      exact .pure fun c => .single rfl rfl (.cons (.element c.1.2 c.2) .nil)
    · exact (mention_reads _ _).bind fun _ => .pure fun c => .named c.2
  · refine peek_reads.bind fun next => ?_
    split
    · refine advance_reads.bind fun _ => (variableOver_reads h).map fun v _ hv => ?_
      exact .single rfl rfl (.cons (.variable (.inl rfl) hv) .nil)
    · refine advance_reads.bind fun _ => (expressionOver_reads h).bind fun inner => ?_
      refine closeParen_reads.bind fun _ => ?_
      refine ((push_reads inner).given fun c => c.1.2).map fun code _ pushed => ?_
      exact pushed.unary rfl rfl rfl
    · refine (variableOver_reads h).map fun v _ hv => ?_
      exact .single rfl rfl (.cons (.variable (.inr rfl) hv) .nil)
  · exact (expressionOver_reads h).bind fun inner => closeParen_reads.bind fun _ =>
      .pure fun c => c.1.2
  · exact randomOver_reads h
  · refine openParen_reads.bind fun _ => (timeoutOver_reads h).bind fun timeout => ?_
    exact closeParen_reads.bind fun _ => .pure fun c => .single rfl rfl (.cons c.1.2 .nil)
  · exact attributeOver_reads h false
  · exact attributeOver_reads h true
  · split
    · next hquery =>
      exact openParen_reads.bind fun _ => closeParen_reads.bind fun _ =>
        .pure fun _ => pushes_of_query? hquery
    · next opcode hopcode =>
      refine openParen_reads.bind fun _ => (expressionOver_reads h).bind fun lhs => ?_
      refine comma_reads.bind fun _ => (expressionOver_reads h).bind fun rhs => ?_
      refine closeParen_reads.bind fun _ => ?_
      refine ((push_reads lhs).given fun c => c.1.1.1.2).bind fun left => ?_
      refine ((push_reads rhs).given fun c => c.1.1.2).map fun right c pushed => ?_
      have binary := isBinary_of_pairing? hopcode
      exact c.2.binary pushed binary.pops binary.pushes binary.operands
    · exact .fail (by simp)
  · exact .fail (by simp)

end Operand

theorem primary_reads (depth : Nat) :
    Reads T C (primary depth) fun v => v.value.Scoped T.scope := by
  induction depth generalizing C with
  | zero => exact lastSeen_reads.bind fun _ => .fail (by simp)
  | succ depth ih =>
    refine (next_reads _).bind fun t => (primaryFrom_reads ih t).bind fun v => ?_
    exact lastSeen_reads.bind fun _ => .pure fun c => c.1.2

/-! ## Whole expressions -/

theorem expression_reads : Reads T C expression fun v => v.value.Scoped T.scope :=
  left_reads.bind fun _ => expressionOver_reads (primary_reads _)

theorem constant_reads : Reads T C constant fun e => e.value.Scoped T.scope :=
  left_reads.bind fun _ => constantOver_reads (primary_reads _)

theorem variableReference_reads : Reads T C variableReference fun v => v.Scoped T.scope :=
  left_reads.bind fun _ => variableOver_reads (primary_reads _)

theorem index_reads : Reads T C index fun e => e.Scoped T.scope :=
  left_reads.bind fun _ => indexOver_reads (primary_reads _)

end Parser

end Gamebook.Grammar
