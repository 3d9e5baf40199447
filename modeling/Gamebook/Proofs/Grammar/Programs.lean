import Gamebook.Grammar.Program
import Gamebook.Proofs.Grammar.Statements

/-!
# Whole programs

A block is read statement by statement, and a program block by block, so what was shown of
statements holds of programs (`program_writes`). A statement that fails is reported where it fails
and reading goes on behind it: no program fails as a whole (`program_completes`).

`complete_of_accept` puts this together for scripts that are accepted. All code of such a script is
balanced, every name in it stands for what it is taken for, and the places it gives are those that
were declared and made up (`Accepted.Complete`).
-/

namespace Gamebook.Grammar

open Gamebook.Symbol (Declaration)

namespace Parser

variable {T : Accepted} {C : Prop}

/-! ## Blocks -/

theorem block_writes (strict : T.strict = true) (fuel : Nat) (ends : List Keyword)
    (needsColon : Bool) : Writes T C (block fuel ends needsColon) [] := by
  induction fuel generalizing C ends needsColon with
  | zero => exact .pure
  | succ fuel ih =>
    refine .read peekLocated_reads fun t => ?_
    cases t with
    | none => exact .pure
    | some t =>
      dsimp only
      split
      · exact .read advance_reads fun _ => ih _ _
      · exact .read advance_reads fun _ => ih _ _
      · exact .read advance_reads fun _ => ih _ _
      · exact .read advance_reads fun _ => ih _ _
      · refine .read advance_reads fun _ => .after ?_ (ih _ _)
        exact emit_writes (fun _ => .text _) fun _ => rfl
      · split
        · exact .pure
        · exact .read advance_reads fun _ => .read (report_reads _ (by simp)) fun _ => ih _ _
      · have rest {C : Prop} (needed : Bool) : Writes T C (do
            attempt (statement fun inner => block fuel inner false)
            block fuel ends needed) [] :=
          .after (attempt_writes (statement_writes fun ends => ih ends false)) (ih ends needed)
        split
        · exact .read (report_reads _ (by simp [strict])) fun _ => rest _
        · exact rest _

/-- What is read between blocks: the end of the script, or a word that ends no block. -/
theorem unmatched_writes {rest : Parser Unit} (h : ∀ {C}, Writes T C rest []) :
    Writes T C (do
      match ← advance with
      | none => return ()
      | some t => do
        match t.value with
        | .keyword k => report (.unmatchedEnd k) t.place
        | _ => pure ()
        rest) [] := by
  refine .read advance_reads fun t => ?_
  cases t with
  | none => exact .pure
  | some t =>
    dsimp only
    split
    · exact .read (report_reads _ (by simp)) fun _ => h
    · exact h

theorem programFor_writes (strict : T.strict = true) (fuel : Nat) :
    Writes T C (programFor fuel) [] := by
  induction fuel generalizing C with
  | zero => exact .pure
  | succ fuel ih =>
    exact .read left_reads fun n => .after (block_writes strict n [] false) (unmatched_writes ih)

/-- A program leaves the stack as it was and gives places to what it declares and makes up. -/
theorem program_writes (strict : T.strict = true) : Writes T C program [] :=
  .read left_reads fun n => programFor_writes strict (n + 1)

/-! ## Reading to the end -/

/-- However `p` ends, it does not fail. -/
def Completes {α : Type} (p : Parser α) : Prop := ∀ s e s', p s ≠ .failed e s'

namespace Completes

variable {α β : Type} {p : Parser α} {f : α → Parser β}

theorem of_done {a : State → α} {next : State → State} (hp : ∀ s, p s = .done (a s) (next s)) :
    Completes p := fun s _ _ h => by
  rw [hp s] at h
  contradiction

protected theorem pure {a : α} : Completes (pure a) := of_done fun _ => rfl

protected theorem bind (hp : Completes p) (hf : ∀ a, Completes (f a)) : Completes (p >>= f) := by
  intro s e s' h
  rw [bind_apply] at h
  cases hps : p s with
  | done a s'' => exact hf a s'' e s' (by rwa [hps] at h)
  | failed e' s'' => exact hp s e' s'' hps
  | overflowed => simp [hps] at h

end Completes

theorem peekLocated_completes : Completes peekLocated := .of_done fun _ => rfl

theorem left_completes : Completes left := .of_done fun _ => rfl

theorem report_completes (e : SyntaxError) (place : Location) : Completes (report e place) :=
  .of_done fun _ => rfl

theorem emit_completes (code : List Instruction) : Completes (emit code) := .of_done fun _ => rfl

theorem advance_completes : Completes advance := by
  intro s e s' h
  unfold advance at h
  dsimp only at h
  split at h <;> contradiction

theorem recoverFor_completes (fuel : Nat) : Completes (recoverFor fuel) := by
  induction fuel with
  | zero => exact .pure
  | succ fuel ih =>
    refine .bind (.bind peekLocated_completes fun _ => .pure) fun t => ?_
    cases t with
    | none => exact .pure
    | some t =>
      dsimp only
      split
      · exact .pure
      · exact .bind advance_completes fun _ => ih

theorem attempt_completes (p : Parser Unit) : Completes (attempt p) := by
  intro s e s' h
  unfold attempt at h
  cases hps : p s with
  | done a s'' => simp [hps] at h
  | overflowed => simp [hps] at h
  | failed e' s'' =>
    rw [hps] at h
    exact Completes.bind (report_completes e'.value e'.place)
      (fun _ => .bind left_completes recoverFor_completes) s'' e s' h

theorem block_completes (fuel : Nat) (ends : List Keyword) (needsColon : Bool) :
    Completes (block fuel ends needsColon) := by
  induction fuel generalizing ends needsColon with
  | zero => exact .pure
  | succ fuel ih =>
    refine .bind peekLocated_completes fun t => ?_
    cases t with
    | none => exact .pure
    | some t =>
      dsimp only
      split
      · exact .bind advance_completes fun _ => ih _ _
      · exact .bind advance_completes fun _ => ih _ _
      · exact .bind advance_completes fun _ => ih _ _
      · exact .bind advance_completes fun _ => ih _ _
      · exact .bind advance_completes fun _ => .bind (emit_completes _) fun _ => ih _ _
      · split
        · exact .pure
        · exact .bind advance_completes fun _ => .bind (report_completes _ _) fun _ => ih _ _
      · split
        · exact .bind (report_completes _ _) fun _ =>
            .bind (attempt_completes _) fun _ => ih _ _
        · exact .bind (attempt_completes _) fun _ => ih _ _

theorem programFor_completes (fuel : Nat) : Completes (programFor fuel) := by
  induction fuel with
  | zero => exact .pure
  | succ fuel ih =>
    refine .bind left_completes fun n => .bind (block_completes n [] false) fun _ => ?_
    refine .bind advance_completes fun t => ?_
    cases t with
    | none => exact .pure
    | some t =>
      dsimp only
      split
      · exact .bind (report_completes _ _) fun _ => ih
      · exact ih

/-- Whatever is wrong with a script, it is read to its end. -/
theorem program_completes : Completes program :=
  .bind left_completes fun n => programFor_completes (n + 1)

end Parser

/-! ## Accepted scripts -/

/-- What holds where a script that is accepted ends. -/
structure Accepted.Complete (T : Accepted) : Prop where
  balanced : Balanced T.scope T.state.code
  /-- The places that code gives are those that were declared and made up. -/
  account : ∀ name what, what.isPlaced = true →
    (placed T.state.code).count (name, what) = T.state.made name what
  sound : T.state.symbols.Sound
  finish : T.state.symbols.finish = []

theorem made_start (tokens : List Lexeme) (name : String) (what : Declaration) :
    (State.start tokens).made name what = 0 := by
  have undeclared : Symbol.Table.empty.declaration name = none := rfl
  simp [State.made, State.start, undeclared]

/-- Only colons may be missing from a script that is accepted. -/
theorem value_of_accept {o : Options} {r : Reading} {program : Program}
    (h : r.accept o = .ok program) :
    program = r.program ∧ ∀ p ∈ r.problems, p.value = .grammar .missingColon := by
  unfold Reading.accept at h
  dsimp only at h
  split at h
  · next none =>
    refine ⟨(Except.ok.inj h).symm, fun p hp => ?_⟩
    have uncounted := List.filter_eq_nil_iff.mp (List.isEmpty_iff.mp none) p hp
    simp only [Options.counts, Bool.or_eq_true, not_or] at uncounted
    simpa using uncounted.2
  · contradiction

/-- A script that is accepted is read to a state in which everything is in order. -/
theorem reached_of_accept {tokens : List Lexeme} {o : Options} {reading : Reading}
    {program : Program} (hread : read tokens = some reading)
    (haccept : reading.accept o = .ok program) :
    ∃ T : Accepted, T.strict = true ∧ Parser.program (State.start tokens) = .done () T.state ∧
      program = ⟨T.state.code, T.state.symbols⟩ ∧ T.Complete := by
  unfold read at hread
  cases run : Parser.program (State.start tokens) with
  | overflowed => simp [run] at hread
  | failed e s => exact (Parser.program_completes _ e s run).elim
  | done a s =>
    rw [run] at hread
    obtain rfl := Option.some.inj hread
    obtain ⟨rfl, fine⟩ := value_of_accept haccept
    have fine : ∀ p ∈ s.problems ++ s.symbols.finish.map (·.map .name),
        p.value = .grammar .missingColon := fine
    let T : Accepted := ⟨s, fun p hp => fine p (List.mem_append_left _ hp), true⟩
    have writes : Parser.Writes T True Parser.program [] := Parser.program_writes rfl
    have writes := writes.runs (State.start tokens)
    rw [run] at writes
    obtain ⟨grows, wrote⟩ := writes
    obtain ⟨new, wrote⟩ := wrote trivial (.refl s)
    have code_eq : s.code = new := by rw [wrote.code_eq]; rfl
    refine ⟨T, rfl, rfl, rfl, code_eq ▸ wrote.balanced, fun name what isPlaced => ?_, ?_, ?_⟩
    · have account := wrote.account name what isPlaced
      rw [made_start, List.count_nil] at account
      change (placed s.code).count (name, what) = s.made name what
      rw [code_eq]
      exact account
    · exact Symbol.Table.Sound.empty.run grows.symbols
    · -- A name that is wrong in the end would be a problem other than a missing colon.
      refine List.eq_nil_iff_forall_not_mem.mpr fun e he => ?_
      have wrong := fine (e.map .name) (List.mem_append_right _ (List.mem_map_of_mem he))
      simp [Located.map] at wrong

theorem complete_of_accept {tokens : List Lexeme} {o : Options} {reading : Reading}
    {program : Program} (hread : read tokens = some reading)
    (haccept : reading.accept o = .ok program) :
    ∃ T : Accepted, program = ⟨T.state.code, T.state.symbols⟩ ∧ T.Complete := by
  obtain ⟨T, -, -, same, complete⟩ := reached_of_accept hread haccept
  exact ⟨T, same, complete⟩

end Gamebook.Grammar
