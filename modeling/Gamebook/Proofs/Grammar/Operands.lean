import Gamebook.Compilation
import Gamebook.Proofs.Grammar.References
import Gamebook.Proofs.Memory.Operands

/-!
# Operands of accepted programs

Every operand in the code of a script that is accepted has the form its opcode asks for, and every
name in it is declared as what it is taken for. Both were shown when the script was read
(`Accepted.Complete`), so the code is encodable (`Accepted.Complete.encodable`), it stays so when
pairs are fused and texts are compressed, and what can still keep it out of memory are the errors of
`GenerateError.Remains` only. This is `operands_encodable`.
-/

namespace Gamebook.Grammar

open Gamebook.Symbol (Declaration)

namespace Accepted.Complete

variable {T : Accepted} {name : String}

theorem value_of_scope (h : T.Complete) (there : T.scope .constant name) :
    ∃ value, T.state.symbols.value? name = some value := by
  rcases there with used | ⟨kind, -⟩
  · obtain ⟨what, declared, kind⟩ := Symbol.Table.declaration_of_uses h.finish used
    cases what with
    | constant value => exact ⟨value, by rw [Symbol.Table.value?, declared]⟩
    | _ => simp [Declaration.kind] at kind
  · contradiction

theorem slot_of_scope (h : T.Complete) (there : T.scope .variable name) :
    ∃ number, T.state.symbols.slot? name = some number := by
  rcases there with used | ⟨kind, -⟩
  · obtain ⟨what, declared, kind⟩ := Symbol.Table.declaration_of_uses h.finish used
    cases what with
    | «variable» number => exact ⟨number, by rw [Symbol.Table.slot?, declared]⟩
    | _ => simp [Declaration.kind] at kind
  · contradiction

/-- Nothing is wrong with the operands of a script that is accepted. -/
theorem encodable (h : T.Complete) :
    Memory.Encodable T.state.symbols T.scope T.state.code where
  closed := h.closed
  names := ⟨fun _ => h.value_of_scope, fun _ => h.slot_of_scope⟩
  fit := h.balanced.forall_scoped

end Accepted.Complete

/-- The program of a script that is accepted, fused and with any texts that a compressor puts in the
place of its own, fails to get into memory only for the windows, for want of room, for a variable or
an index out of range, or for a constant without a value or out of range. No operand is of the wrong
form or missing, and no name in it is unknown. The first case is not one of these errors: there the
division of a constant has no value among the numbers of 64 bits, which aborts everything, so that
no error is returned at all. -/
theorem operands_encodable {tokens : List Lexeme} {o : Options} {reading : Reading}
    {program : Program} {compressor : Prose.Compressor} {code : List Instruction}
    (hread : read tokens = some reading) (haccept : reading.accept o = .ok program)
    (hcompress : Prose.compress compressor (Fusion.optimize program.code) = .ok code)
    (m : Memory.Options) {log : Log} {e : CompileError}
    (hg : generate m program.symbols code = (log, .error e)) :
    e = .overflow ∨ ∃ cause, e = .generate cause ∧ cause.Remains := by
  obtain ⟨T, rfl, h⟩ := complete_of_accept hread haccept
  obtain rfl := Prose.eq_replace_of_compress hcompress
  have encodable := h.encodable.optimize.replace (compressor (Prose.texts
    (Fusion.optimize T.state.code)))
  unfold generate at hg
  split at hg
  · simp at hg
  · exact .inl (by simpa using congrArg Prod.snd hg.symm)
  · next cause overflows failed =>
    rcases encodable.remains_of_generate failed with remains | rfl
    · exact .inr ⟨cause, by simpa using congrArg Prod.snd hg.symm, remains⟩
    · exact absurd rfl overflows

/-- A variable and two constants that are declared behind their uses; the second one divides. -/
def deferredQuotient : List Lexeme :=
  ([.keyword .SET, .identifier "count", .keyword .TO, .identifier "many", .colon,
    .keyword .PRINT, .number 1, .divide, .identifier "none", .colon,
    .keyword .DECLARE, .number 5, .keyword .AS, .identifier "count", .colon,
    .keyword .CONST, .identifier "many", .equals, .number 7, .colon,
    .keyword .CONST, .identifier "none", .equals, .number 0] : List Token).map
    fun t => ⟨.ok t, .nowhere⟩

/-- Both values are fused with what is done with them. -/
def deferredCode : List Instruction :=
  [.code .SET_D [.variable (.named "count"), .constant (.named "many") .byte],
    .code .PRINT_D [.constant (.binary (.value 1) .div (.named "none")) .byte], .op .END]

/-- What keeps a program out of memory, if something does. -/
def failure? (outcome : Log × Except CompileError Memory.Image) : Option Memory.GenerateError :=
  match outcome.2 with
  | .error (.generate e) => some e
  | _ => none

theorem eq_error_of_failure? {outcome : Log × Except CompileError Memory.Image}
    {e : Memory.GenerateError} (h : failure? outcome = some e) :
    outcome = (outcome.1, .error (.generate e)) := by
  unfold failure? at h
  split at h
  · next e' he => rw [← Option.some.inj h, ← he]
  · contradiction

theorem read_deferredQuotient : ∃ reading program, read deferredQuotient = some reading ∧
    reading.accept {} = .ok program ∧ Fusion.optimize program.code = deferredCode ∧
      failure? (generate {} program.symbols deferredCode) =
        some (.constant .divisionByZero) := by
  have check : (Parser.program (State.start deferredQuotient)).done?.map (fun s =>
      decide (s.problems = [] ∧ (∀ e ∈ s.symbols.entries, Symbol.Table.atEnd e = []) ∧
        Fusion.optimize s.code = deferredCode ∧
        failure? (generate {} s.symbols deferredCode) = some (.constant .divisionByZero))) =
      some true := by
    decide +kernel
  obtain ⟨s, hs, check⟩ := Option.map_eq_some_iff.mp check
  obtain ⟨fine, names, code_eq, failed⟩ := of_decide_eq_true check
  obtain ⟨hread, haccept⟩ := accept_of_done (Outcome.eq_done hs) fine names {}
  exact ⟨_, _, hread, haccept, code_eq, failed⟩

theorem operands_encodable_deferredQuotient : ∃ reading program log,
    read deferredQuotient = some reading ∧ reading.accept {} = .ok program ∧
      Prose.compress Prose.verbatim (Fusion.optimize program.code) = .ok deferredCode ∧
      generate {} program.symbols deferredCode =
        (log, .error (.generate (.constant .divisionByZero))) ∧
      (CompileError.generate (.constant .divisionByZero) = .overflow ∨
        ∃ cause, CompileError.generate (.constant .divisionByZero) = .generate cause ∧
          cause.Remains) := by
  obtain ⟨reading, program, hread, haccept, code_eq, failed⟩ := read_deferredQuotient
  have hcompress : Prose.compress Prose.verbatim (Fusion.optimize program.code) =
      .ok deferredCode := by
    rw [code_eq]
    rfl
  have hg := eq_error_of_failure? failed
  exact ⟨reading, program, _, hread, haccept, hcompress, hg,
    operands_encodable hread haccept hcompress {} hg⟩

end Gamebook.Grammar
