import Gamebook.Grammar.Statement
import Gamebook.Proofs.Grammar.Expressions

/-!
# Conditions and loops that are in order

A condition or a loop becomes jumps to labels that are made up on the way. Such a label is owed from
the moment it is made up, and the jumps to it are written before it has a place; the proofs of this
module follow what is owed up to where it is paid. In the end every label has been given a place
once (`branches_writes`, `whileLoop_writes`, `doLoop_writes`), if this holds of the blocks in
between.

What stands behind `ELSE` is read before it is known whether it is written, so it is taken back
first and owed as a whole (`emit_otherwise`).
-/

namespace Gamebook.Grammar

theorem jump_fits {σ : Scope} {op : Opcode} {label : String} (shape : op.operands = [.address])
    (h : σ .label label) : OperandsFit σ op [.label label] := by
  rw [OperandsFit, shape]
  exact .cons (.label h) .nil

namespace Parser

variable {T : Accepted} {C : Prop}

theorem condition_reads : Reads T C condition (Pushes T.scope 1) :=
  expression_reads.bind fun v => (push_reads v).given And.right

/-- What `ELSE` puts behind the first branch. -/
theorem emit_otherwise (otherwise done : String) (body : List Instruction) :
    Writes T (T.scope .label done ∧ Balanced T.scope body)
      (emit ([.jump .GOTO done, .label otherwise] ++ body ++ [.label done]))
      ((done, .label) :: (placed body ++ [(otherwise, .label)])) := by
  have code : Writes T (T.scope .label done ∧ Balanced T.scope body)
      (emit ([.jump .GOTO done, .label otherwise] ++ body ++ [.label done]))
      ([(otherwise, .label)] ++ placed body ++ [(done, .label)]) := by
    refine emit_writes (fun ⟨hdone, hbody⟩ => ?_) fun _ => by
      rw [placed_append, placed_append]
      rfl
    have jump : Balanced T.scope [.jump .GOTO done] := .single rfl rfl (jump_fits rfl hdone)
    exact ((jump.append (.label otherwise)).append hbody).append (.label done)
  refine code.perm fun _ => ?_
  rw [List.perm_iff_count]
  intro x
  simp only [List.count_append, List.count_cons, List.count_nil]
  omega

section Blocks

variable {block : List Keyword → Parser Unit}

theorem branches_writes (hblock : ∀ {C} ends, Writes T C (block ends) []) (fuel : Nat)
    (test : List Instruction) :
    Writes T (Pushes T.scope 1 test) (branches block fuel test) [] := by
  induction fuel generalizing test with
  | zero => exact .read lastSeen_reads fun _ => .fail (by simp)
  | succ fuel ih =>
    refine .labelled fun otherwise => ?_
    refine .after (emit_act And.left rfl fun c => jump_fits rfl c.2) (.after (hblock _) ?_)
    refine .read (next_reads _) fun t => ?_
    split
    · exact emit_writes (fun _ => .label otherwise) fun _ => rfl
    · refine .capturing (hblock _) fun body => .read (word_reads _) fun _ => ?_
      split
      · next empty =>
        obtain rfl := List.isEmpty_iff.mp empty
        exact emit_writes (fun _ => .label otherwise) fun _ => rfl
      · refine .labelled fun done => ?_
        exact (emit_otherwise otherwise done body).given fun c => ⟨c.2, c.1.1.2⟩
    · refine .labelled fun done => ?_
      refine .perm (.paying ?_ ?_) fun _ => .swap _ _ _
      · exact emit_writes
          (fun c => .append (.single rfl rfl (jump_fits rfl c.2)) (.label otherwise))
          fun _ => rfl
      refine .read condition_reads fun test => .read (word_reads _) fun _ => ?_
      refine .after ((ih test).given fun c => c.1.2) ?_
      exact emit_writes (fun _ => .label done) fun _ => rfl
    · exact .fail (by simp)

theorem ifStatement_writes (hblock : ∀ {C} ends, Writes T C (block ends) []) :
    Writes T C (ifStatement block) [] :=
  .read condition_reads fun test => .read (word_reads _) fun _ => .read left_reads fun _ =>
    (branches_writes hblock _ test).given fun c => c.1.1.2

theorem loopCondition_reads :
    Reads T C loopCondition fun test? => ∀ test ∈ test?, Pushes T.scope 1 test := by
  refine peek_reads.bind fun t => ?_
  split
  · exact .pure fun _ => by simp
  · exact condition_reads.map fun test _ h => by simpa using h

theorem whileLoop_writes (hblock : ∀ {C} ends, Writes T C (block ends) []) :
    Writes T C (whileLoop block) [] := by
  refine .read openParen_reads fun _ => .read loopCondition_reads fun test? => ?_
  refine .read closeParen_reads fun _ => .labelled fun start => ?_
  refine .paying (emit_writes (fun _ => .label start) fun _ => rfl) ?_
  cases test? with
  | some test =>
    refine .labelled fun done => ?_
    refine .after (emit_act (fun c => c.1.1.1.2 test rfl) rfl fun c => jump_fits rfl c.2) ?_
    refine .after (hblock _) (.read (word_reads _) fun _ => ?_)
    refine emit_writes (fun c => ?_) fun _ => rfl
    exact .append (.single rfl rfl (jump_fits rfl c.1.1.2)) (.label done)
  | none =>
    refine .after (hblock _) (.read (word_reads _) fun _ => ?_)
    exact emit_single rfl rfl fun c => jump_fits rfl c.1.2

theorem doLoop_writes (hblock : ∀ {C} ends, Writes T C (block ends) []) :
    Writes T C (doLoop block) [] := by
  refine .labelled fun start => ?_
  refine .paying (emit_writes (fun _ => .label start) fun _ => rfl) ?_
  refine .after (hblock _) (.read (word_reads _) fun _ => ?_)
  exact .read condition_reads fun test => emit_act And.right rfl fun c => jump_fits rfl c.1.1.2

end Blocks

end Parser

end Gamebook.Grammar
