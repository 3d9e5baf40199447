import Gamebook.Proofs.Bytecode.Stack
import Gamebook.Proofs.Grammar.References

/-!
# The stack in accepted programs

All code of a script that is accepted is balanced (`Accepted.Complete`), so it can be gone through
with the stack empty wherever statements meet, and on every path through its branches and loops the
stack is as deep as it is from the front. This is `stack_discipline`; it holds of the code as it was
read and of the code after fusing.
-/

namespace Gamebook.Grammar

/-- In the program of a script that is accepted no instruction takes more from the stack than there
is, and the stack is empty at labels, texts and arrays, behind jumps and at the end; from the front
and on every path, before and after fusing. -/
theorem stack_discipline {tokens : List Lexeme} {o : Options} {reading : Reading}
    {program : Program} (hread : read tokens = some reading)
    (haccept : reading.accept o = .ok program) :
    (stackSafe 0 program.code = true ∧ StackBalanced program.code) ∧
      stackSafe 0 (Fusion.optimize program.code) = true ∧
        StackBalanced (Fusion.optimize program.code) := by
  obtain ⟨T, rfl, h⟩ := complete_of_accept hread haccept
  have safe : stackSafe 0 T.state.code = true := h.balanced.stackSafe
  have fused := stackSafe_optimize safe
  exact ⟨⟨safe, stackBalanced_of_stackSafe safe⟩, fused, stackBalanced_of_stackSafe fused⟩

/-- A loop with a negated condition around a branch with an `ELSE`; one place on the screen is known
only in part and goes over the stack. -/
def placingLoop : List Lexeme :=
  ([.keyword .WHILE, .openParen, .keyword .NOT, .indirection, .number 0, .closeParen, .colon,
    .keyword .IF, .indirection, .number 1, .less, .number 2, .keyword .THEN,
    .keyword .AT, .indirection, .number 1, .comma, .number 3, .colon, .keyword .ELSE,
    .keyword .PRINT, .number 7, .colon, .keyword .ENDIF, .colon, .keyword .WEND] :
    List Token).map fun t => ⟨.ok t, .nowhere⟩

def placingCode : List Instruction :=
  [.label "__LABEL_0", .code .PUSH_I [.variable (.slot 0)], .op .NOT, .jump .IF_N_GOTO "__LABEL_1",
    .code .PUSH_I [.variable (.slot 1)], .code .PUSH_D [.literal 2], .op .CP_LT,
    .jump .IF_N_GOTO "__LABEL_2", .code .PUSH_I [.variable (.slot 1)], .code .PUSH_D [.literal 3],
    .op .POP_AT, .jump .GOTO "__LABEL_3", .label "__LABEL_2", .code .PUSH_D [.literal 7],
    .op .POP_PRINT, .label "__LABEL_3", .jump .GOTO "__LABEL_0", .label "__LABEL_1"]

theorem read_placingLoop : ∃ reading program, read placingLoop = some reading ∧
    reading.accept {} = .ok program ∧ program.code = placingCode := by
  have check : (Parser.program (State.start placingLoop)).done?.map (fun s =>
      decide (s.problems = [] ∧ (∀ e ∈ s.symbols.entries, Symbol.Table.atEnd e = []) ∧
        s.code = placingCode)) = some true := by
    decide +kernel
  obtain ⟨s, hs, check⟩ := Option.map_eq_some_iff.mp check
  obtain ⟨fine, names, code_eq⟩ := of_decide_eq_true check
  obtain ⟨hread, haccept⟩ := accept_of_done (Outcome.eq_done hs) fine names {}
  exact ⟨_, _, hread, haccept, code_eq⟩

theorem stack_discipline_placingLoop : ∃ reading program, read placingLoop = some reading ∧
    reading.accept {} = .ok program ∧ program.code = placingCode ∧
      (stackSafe 0 placingCode = true ∧ StackBalanced placingCode) ∧
        stackSafe 0 (Fusion.optimize placingCode) = true ∧
          StackBalanced (Fusion.optimize placingCode) := by
  obtain ⟨reading, program, hread, haccept, code_eq⟩ := read_placingLoop
  exact ⟨reading, program, hread, haccept, code_eq, code_eq ▸ stack_discipline hread haccept⟩

end Gamebook.Grammar
