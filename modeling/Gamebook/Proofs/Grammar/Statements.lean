import Gamebook.Proofs.Grammar.Assignments
import Gamebook.Proofs.Grammar.Branches

/-!
# Statements that are in order

Every statement writes code that leaves the stack as it was, and gives a place to exactly what it
declares and makes up (`statement_writes`). Where a statement encloses a block, this rests on the
same being true of the block, which is assumed here and shown for blocks in
`Gamebook.Proofs.Grammar.Programs`.

Many statements have two forms: if all their values are known, these are the operands of one
instruction; otherwise the values go over the stack. Both are in order, the first because there are
as many values as the instruction has operands, the second because as many are pushed as it takes.
-/

namespace Gamebook.Grammar

open Constant (Expr Width)

namespace Parser

variable {T : Accepted} {C : Prop}

/-! ## The screen -/

theorem foldConstants_reads (es : List (Located Expr)) :
    Reads T C (foldConstants es) fun _ => True := by
  induction es generalizing C with
  | nil => exact .pure fun _ => trivial
  | cons e es ih =>
    refine (evaluate_reads _).bind fun value => ?_
    cases value with
    | error e => exact .pure fun _ => trivial
    | ok value => exact ih.map fun _ _ _ => trivial

theorem foldPair_reads (a b : Located Value) : Reads T C (foldPair a b) fun _ => True := by
  unfold foldPair
  split
  · refine (evaluate_reads _).bind fun first => (evaluate_reads _).bind fun second => ?_
    split <;> exact .pure fun _ => trivial
  · exact .pure fun _ => trivial

/-- An instruction that takes all its values from the stack. -/
theorem emit_pushAll {op : Opcode} {xs : List Operand} {vs : List (Located Value)}
    (length_eq : C → vs.length = op.pops) (h : C → ∀ v ∈ vs, v.value.Scoped T.scope)
    (acts : op.acts = true) (fit : C → OperandsFit T.scope op xs) :
    Writes T C (do emit ((← pushAll vs) ++ [.code op xs])) [] :=
  .read ((pushAll_reads vs).given h) fun _ =>
    emit_act (fun c => length_eq c.1 ▸ c.2) acts fun c => fit c.1

/-- An instruction that takes two stretches of values from the stack. -/
theorem emit_pushAll_pushAll {op : Opcode} {vs ws : List (Located Value)}
    (length_eq : C → vs.length + ws.length = op.pops) (hv : C → ∀ v ∈ vs, v.value.Scoped T.scope)
    (hw : C → ∀ w ∈ ws, w.value.Scoped T.scope) (acts : op.acts = true)
    (operands : op.operands = []) :
    Writes T C (do emit ((← pushAll vs) ++ (← pushAll ws) ++ [.op op])) [] := by
  refine .read ((pushAll_reads vs).given hv) fun first => ?_
  refine .read ((pushAll_reads ws).given fun c => hw c.1) fun second => ?_
  refine emit_act (fun c => ?_) acts fun _ => by rw [OperandsFit, operands]; exact .nil
  rw [← length_eq c.1.1]
  exact c.1.2.append c.2

/-- Byte operands for as many bytes as the opcode has operands. -/
theorem byteOperands_fit {σ : Scope} {shapes : List OperandShape} {values : List UInt16}
    (shapes_eq : ∀ shape ∈ shapes, shape ≠ .address) (length_eq : values.length = shapes.length) :
    List.Forall₂ (Operand.Fits σ) shapes (values.map byteOperand) := by
  induction shapes generalizing values with
  | nil =>
    obtain rfl := List.length_eq_zero_iff.mp length_eq
    exact .nil
  | cons shape shapes ih =>
    obtain ⟨value, values, rfl⟩ := List.exists_cons_of_length_eq_add_one length_eq
    obtain ⟨hshape, hshapes⟩ := List.forall_mem_cons.mp shapes_eq
    exact .cons (byteOperand_fits value hshape) (ih hshapes (by simpa using length_eq))

theorem nextPlace_reads : Reads T C nextPlace fun _ => True := by
  refine peekLocated_reads.bind fun t => ?_
  cases t with
  | none => exact lastSeen_reads
  | some t => exact .pure fun _ => trivial

theorem atStatement_writes : Writes T C atStatement [] := by
  refine .read nextPlace_reads fun start => .read expression_reads fun column => ?_
  refine .read comma_reads fun _ => .read expression_reads fun row => ?_
  refine .read (foldPair_reads column row) fun known => ?_
  split
  · refine .read lastSeen_reads fun place => .read (check_reads _ _ _) fun c => ?_
    refine .read (check_reads _ _ _) fun r => ?_
    have place {C : Prop} (c r : UInt16) :
        Writes T C (emit [.code .AT [byteOperand c, byteOperand r]]) [] :=
      emit_single rfl rfl fun _ => .cons (byteOperand_fits c (by simp))
        (.cons (byteOperand_fits r (by simp)) .nil)
    dsimp only
    split
    · exact .after (warn_reads _).writes (place _ _)
    · exact place _ _
  · refine emit_pushAll (fun _ => rfl) (fun c => ?_) rfl fun _ => .nil
    exact List.forall_mem_cons.mpr ⟨c.1.1.1.2, List.forall_mem_singleton.mpr c.1.2⟩

theorem immediates_reads (es : List (Located Expr)) :
    Reads T (∀ e ∈ es, e.value.Scoped T.scope) (immediates es)
      (List.Forall₂ (Operand.Fits T.scope) (List.replicate es.length .byte)) := by
  induction es with
  | nil => exact .pure fun _ => .nil
  | cons e es ih =>
    refine ((immediate_reads e .byte).given fun h => h e List.mem_cons_self).bind fun first => ?_
    refine (ih.given fun c d hd => c.1 d (List.mem_cons_of_mem e hd)).map fun rest c fit => ?_
    exact .cons c.2 fit

theorem placeOf_reads (es : List (Located Expr)) : Reads T C (placeOf es) fun _ => True :=
  lastSeen_reads.map fun _ _ _ => trivial

theorem areaStatement_writes {op : Opcode} (pops : op.pops = 0) (acts : op.acts = true)
    (operands : op.operands = List.replicate 4 .byte) : Writes T C (areaStatement op) [] := by
  refine .read (listOf_reads constant_reads 4) fun es => .read (placeOf_reads es) fun place => ?_
  refine .read (foldConstants_reads es) fun ns => ?_
  split
  · refine .read (checkBytes_reads _) fun bytes => ?_
    have written {C : Prop} (area : Screen.Area) :
        Writes T C (emit [.code op (area.toList.map byteOperand)]) [] :=
      emit_single pops acts fun _ =>
        byteOperands_fit (by simp [operands]) (by simp [operands]; rfl)
    dsimp only
    split
    · exact .after (warn_reads _).writes (written _)
    · exact written _
  · refine .read ((immediates_reads es).given fun c => c.1.1.2.2) fun xs => ?_
    refine emit_single pops acts fun c => ?_
    have fit := c.2
    rwa [c.1.1.1.2.1, ← operands] at fit

theorem windowOperand_reads (e : Located Expr) :
    Reads T (e.value.Scoped T.scope) (windowOperand e) (Operand.Fits T.scope .byte) := by
  refine (evaluate_reads e.value).bind fun value => ?_
  cases value with
  | ok value => exact (check_reads _ _ _).map fun _ _ _ => .literal _ (by simp)
  | error _ =>
    exact (immediate_reads _ .byte).given fun c => .binary c.1 (by decide) (.value _)

theorem windowStatement_writes : Writes T C windowStatement [] :=
  .read constant_reads fun e => .read ((windowOperand_reads e).given And.right) fun _ =>
    emit_single rfl rfl fun c => .cons c.2 .nil

/-- An area and a place, all of them on the screen. -/
theorem blitStatement_writes : Writes T C blitStatement [] := by
  refine .read (listOf_reads expression_reads 4) fun source => .read (word_reads _) fun _ => ?_
  refine .read (listOf_reads expression_reads 2) fun place => ?_
  refine .read (foldBytes_reads source) fun values => ?_
  split
  · refine emit_pushAll_pushAll (fun c => ?_) (fun c => c.1.1.1.2.2) (fun c => c.1.2.2) rfl rfl
    rw [c.1.1.1.2.1, c.1.2.1]
    rfl
  · next values =>
    refine .read (foldBytes_reads place) fun spot => ?_
    split
    · exact emit_single rfl rfl fun _ => .cons (byteOperand_fits _ (by simp))
        (.cons (byteOperand_fits _ (by simp)) (.cons (byteOperand_fits _ (by simp))
          (.cons (byteOperand_fits _ (by simp)) (.cons (byteOperand_fits _ (by simp))
            (.cons (byteOperand_fits _ (by simp)) .nil)))))
    · exact emit_pushAll (fun c => c.1.1.2.1) (fun c => c.1.1.2.2) rfl
        fun _ => byteOperands_fit (by simp [Opcode.operands]) rfl

theorem fillAttrStatement_writes : Writes T C fillAttrStatement [] := by
  refine .read (listOf_reads expression_reads 5) fun parts => ?_
  refine .read (foldBytes_reads parts) fun values => ?_
  split
  · refine emit_single rfl rfl fun c => byteOperands_fit (by simp [Opcode.operands]) ?_
    rw [c.2 _ rfl, c.1.2.1]
    rfl
  · exact emit_pushAll (fun c => c.1.2.1) (fun c => c.1.2.2) rfl fun _ => .nil

theorem attributeMask_reads (attr : Located Value) :
    Reads T C (attributeMask attr) fun v => v.value.Scoped T.scope := by
  refine (accept_reads _).bind fun more => ?_
  split
  · exact expression_reads
  · exact .pure fun _ => .value _

theorem putAttrStatement_writes : Writes T C putAttrStatement [] := by
  refine .read expression_reads fun attr => .read (attributeMask_reads attr) fun mask => ?_
  refine .read (word_reads _) fun _ => .read (listOf_reads expression_reads 2) fun place => ?_
  refine .read (foldBytes_reads [attr, mask]) fun style => ?_
  split
  · refine emit_pushAll_pushAll (fun c => ?_) (fun c => ?_) (fun c => c.1.2.2) rfl rfl
    · rw [c.1.2.1]
      rfl
    · exact List.forall_mem_cons.mpr ⟨c.1.1.1.1.2, List.forall_mem_singleton.mpr c.1.1.1.2⟩
  · next style =>
    refine .read (foldBytes_reads place) fun spot => ?_
    split
    · next spot =>
      refine emit_single rfl rfl fun c => ?_
      rw [← List.map_append]
      refine byteOperands_fit (by simp [Opcode.operands]) ?_
      rw [List.length_append, List.length_reverse, c.2 _ rfl, c.1.2 _ rfl, c.1.1.2.1]
      rfl
    · refine emit_pushAll (fun c => c.1.1.2.1) (fun c => c.1.1.2.2) rfl fun c => ?_
      refine byteOperands_fit (by simp [Opcode.operands]) ?_
      rw [List.length_reverse, c.1.2 _ rfl]
      rfl

theorem firstOption_reads : Reads T C firstOption fun v => v.value.Scoped T.scope := by
  refine (accept_reads _).bind fun more => ?_
  split
  · exact expression_reads
  · exact lastSeen_reads.map fun _ _ _ => .value _

theorem menuConfigStatement_writes : Writes T C menuConfigStatement [] := by
  refine .read (listOf_reads expression_reads 2) fun place => ?_
  refine .read firstOption_reads fun first => ?_
  refine .read (foldBytes_reads _) fun values => ?_
  split
  · exact emit_single rfl rfl fun _ => .cons (byteOperand_fits _ (by simp))
      (.cons (byteOperand_fits _ (by simp)) (.cons (byteOperand_fits _ (by simp)) .nil))
  · refine emit_pushAll (fun c => ?_) (fun c => ?_) rfl fun _ => .nil
    · rw [List.length_append, c.1.1.2.1]
      rfl
    · exact List.forall_mem_append.mpr ⟨c.1.1.2.2, List.forall_mem_singleton.mpr c.1.2⟩

/-! ## Everything else -/

theorem memoryLength_reads : Reads T C memoryLength (Operand.Fits T.scope .byte) := by
  refine (accept_reads _).bind fun more => ?_
  split
  · exact constant_reads.bind fun e => (immediate_reads e .byte).given And.right
  · exact .pure fun _ => .literal _ (by simp)

theorem memoryRange_reads :
    Reads T C memoryRange (List.Forall₂ (Operand.Fits T.scope) [.slot, .byte]) :=
  variableReference_reads.bind fun _ => memoryLength_reads.map fun _ c fits =>
    .cons (.variable (.inr rfl) c.2) (.cons fits .nil)

theorem wholeMemory_fits {σ : Scope} : List.Forall₂ (Operand.Fits σ) [.slot, .byte] wholeMemory :=
  .cons (.variable (.inr rfl) trivial) (.cons (.literal _ (by simp)) .nil)

theorem saveStatement_writes : Writes T C saveStatement [] := by
  have save {C : Prop} {slot : Located Value} {range : List Operand}
      (hslot : C → slot.value.Scoped T.scope)
      (hrange : C → List.Forall₂ (Operand.Fits T.scope) [.slot, .byte] range) :
      Writes T C (do emit ((← push slot) ++ [.code .POP_SLOT_SAVE range])) [] :=
    .read ((push_reads slot).given hslot) fun _ => emit_act And.right rfl fun c => hrange c.1
  refine .read expression_reads fun slot => .read (accept_reads _) fun more => ?_
  dsimp only
  split
  · exact .read memoryRange_reads fun _ => save (fun c => c.1.1.2) And.right
  · exact .read (.pure fun _ => wholeMemory_fits) fun _ => save (fun c => c.1.1.2) And.right

theorem ramStatement_writes {op : Opcode} (pops : op.pops = 0) (acts : op.acts = true)
    (operands : op.operands = [.slot, .byte]) : Writes T C (ramStatement op) [] := by
  have ram {C : Prop} {range : List Operand}
      (hrange : C → List.Forall₂ (Operand.Fits T.scope) [.slot, .byte] range) :
      Writes T C (emit [.code op range]) [] :=
    emit_single pops acts fun c => by rw [OperandsFit, operands]; exact hrange c
  refine .read atStatementEnd_reads fun whole => ?_
  dsimp only
  split
  · exact .read (.pure fun _ => wholeMemory_fits) fun _ => ram And.right
  · exact .read memoryRange_reads fun _ => ram And.right

theorem countStatement_writes {op : Opcode} (pops : op.pops = 0) (acts : op.acts = true)
    (operands : op.operands = [.byte]) : Writes T C (countStatement op) [] := by
  have count {C : Prop} {x : Operand} (hx : C → x.Fits T.scope .byte) :
      Writes T C (emit [.code op [x]]) [] :=
    emit_single pops acts fun c => by rw [OperandsFit, operands]; exact .cons (hx c) .nil
  refine .read atStatementEnd_reads fun one => ?_
  dsimp only
  split
  · exact .read (.pure fun _ => .literal _ (by simp)) fun _ => count And.right
  · exact .read constant_reads fun e => .read ((immediate_reads e .byte).given And.right) fun _ =>
      count And.right

theorem constantStatement_writes {op : Opcode} {width : Width} (pops : op.pops = 0)
    (acts : op.acts = true) (operands : op.operands = [shapeOf width]) :
    Writes T C (constantStatement op width) [] := by
  refine .read constant_reads fun e => .read ((immediate_reads e width).given And.right) fun x => ?_
  exact emit_single pops acts fun c => by rw [OperandsFit, operands]; exact .cons c.2 .nil

theorem repCharStatement_writes : Writes T C repCharStatement [] := by
  refine .read constant_reads fun e => .read ((immediate_reads e .byte).given And.right) fun c => ?_
  refine .read comma_reads fun _ => .read constant_reads fun e => ?_
  refine .read ((immediate_reads e .byte).given And.right) fun times => ?_
  exact emit_single rfl rfl fun c => .cons c.1.1.1.2 (.cons c.2 .nil)

theorem jumpKind_reads : Reads T C jumpKind fun _ => True := by
  refine (next_reads _).bind fun t => ?_
  split
  · exact .pure fun _ => trivial
  · exact .pure fun _ => trivial
  · exact .fail (by simp)

theorem labelReference_reads : Reads T C labelReference (Operand.Fits T.scope .address) :=
  identifier_reads.bind fun _ => (mention_reads _ _).bind fun _ => .pure fun c => .label c.2

theorem optionStatement_writes : Writes T C optionStatement [] :=
  .read jumpKind_reads fun _ => .read labelReference_reads fun _ =>
    emit_single rfl rfl fun c => .cons (.literal _ (by simp)) (.cons c.2 .nil)

theorem chooseStatement_writes : Writes T C chooseStatement [] := by
  refine .read (accept_reads _) fun timed => ?_
  split
  · refine .read (word_reads _) fun _ => .read constant_reads fun e => ?_
    refine .read ((immediate_reads e .word).given And.right) fun timeout => ?_
    refine .read (word_reads _) fun _ => .read jumpKind_reads fun flag => ?_
    refine .read labelReference_reads fun label => emit_single rfl rfl fun c => ?_
    exact .cons c.1.1.1.2 (.cons (.literal _ (by simp)) (.cons c.2 .nil))
  · exact emit_single rfl rfl fun _ => .nil

theorem placeLabel_writes (name : Located String) : Writes T C (placeLabel name) [] :=
  .declaring (emit_writes (fun _ => .label name.value) fun _ => rfl)

theorem jumpStatement_writes {op : Opcode} (pops : op.pops = 0) (acts : op.acts = true)
    (operands : op.operands = [.address]) :
    Writes T C (do emit [.code op [← labelReference]]) [] :=
  .read labelReference_reads fun _ => emit_single pops acts fun c => by
    rw [OperandsFit, operands]
    exact .cons c.2 .nil

/-- A statement that takes the value of an expression from the stack. -/
theorem popStatement_writes {op : Opcode} (pops : op.pops = 1) (acts : op.acts = true)
    (operands : op.operands = []) : Writes T C (do emit ((← condition) ++ [.op op])) [] :=
  .read condition_reads fun _ => emit_act (fun c => pops ▸ c.2) acts fun _ => by
    rw [OperandsFit, operands]
    exact .nil

end Parser

theorem plainOpcode?_eq_some {k : Keyword} {op : Opcode} (h : plainOpcode? k = some op) :
    op.pops = 0 ∧ op.acts = true ∧ op.operands = [] := by
  unfold plainOpcode? at h
  split at h <;> simp only [Option.some.injEq, reduceCtorEq] at h <;> exact h ▸ ⟨rfl, rfl, rfl⟩

theorem popOpcode?_eq_some {k : Keyword} {op : Opcode} (h : popOpcode? k = some op) :
    op.pops = 1 ∧ op.acts = true ∧ op.operands = [] := by
  unfold popOpcode? at h
  split at h <;> simp only [Option.some.injEq, reduceCtorEq] at h <;> exact h ▸ ⟨rfl, rfl, rfl⟩

namespace Parser

section Blocks

variable {block : List Keyword → Parser Unit}

theorem statementOf_writes (hblock : ∀ {C} ends, Writes T C (block ends) []) (k : Keyword)
    (place : Location) : Writes T C (statementOf block k place) [] := by
  unfold statementOf
  split
  · exact .read identifier_reads fun name => placeLabel_writes name
  · exact jumpStatement_writes rfl rfl rfl
  · exact jumpStatement_writes rfl rfl rfl
  · exact ifStatement_writes hblock
  · exact whileLoop_writes hblock
  · exact doLoop_writes hblock
  · exact assignment_writes
  · exact assignment_writes
  · exact declareStatement_writes
  · exact constStatement_writes
  · exact dimStatement_writes
  · exact atStatement_writes
  · exact areaStatement_writes rfl rfl rfl
  · exact areaStatement_writes rfl rfl rfl
  · exact windowStatement_writes
  · exact blitStatement_writes
  · exact fillAttrStatement_writes
  · exact putAttrStatement_writes
  · exact menuConfigStatement_writes
  · exact saveStatement_writes
  · exact popStatement_writes rfl rfl rfl
  · exact ramStatement_writes rfl rfl rfl
  · exact ramStatement_writes rfl rfl rfl
  · exact countStatement_writes rfl rfl rfl
  · exact countStatement_writes rfl rfl rfl
  · exact constantStatement_writes rfl rfl rfl
  · exact constantStatement_writes rfl rfl rfl
  · exact repCharStatement_writes
  · exact constantStatement_writes rfl rfl rfl
  · exact constantStatement_writes rfl rfl rfl
  · exact constantStatement_writes rfl rfl rfl
  · exact optionStatement_writes
  · exact chooseStatement_writes
  · split
    · next hop =>
      obtain ⟨pops, acts, operands⟩ := plainOpcode?_eq_some hop
      exact emit_single pops acts fun _ => by rw [OperandsFit, operands]; exact .nil
    · next hop =>
      obtain ⟨pops, acts, operands⟩ := popOpcode?_eq_some hop
      exact popStatement_writes pops acts operands
    · exact .fail (by simp)

/-- A statement is in order if the blocks in it are. -/
theorem statement_writes (hblock : ∀ {C} ends, Writes T C (block ends) []) :
    Writes T C (statement block) [] := by
  refine .read (next_reads _) fun t => ?_
  split
  · exact statementOf_writes hblock _ _
  · exact placeLabel_writes _
  · exact .fail (by simp)

end Blocks

end Parser

end Gamebook.Grammar
