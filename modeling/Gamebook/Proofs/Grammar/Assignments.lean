import Gamebook.Grammar.Statement
import Gamebook.Proofs.Grammar.Expressions

/-!
# Assignments and declarations that are in order

An assignment stores each of its values on its own, so the stack is as it was behind every one of
them (`storeAll_writes`). Of the declarations, only that of an array is owed a place, and it is
written at once (`dimStatement_writes`). It has between 1 and 255 elements however it was given
(`arrayBytes_reads`).
-/

namespace Gamebook.Grammar

open Constant (Expr Width)

/-- The names of the target stand for what it takes them for. -/
def Target.Scoped (σ : Scope) : Target → Prop
  | .variable v | .pointer v => v.Scoped σ
  | .element array index => σ .array array ∧ index.Scoped σ

/-- Storing takes one value from the stack. -/
theorem Target.store_eq {σ : Scope} {t : Target} (h : t.Scoped σ) (i : Nat) :
    ∃ op xs, t.store i = .code op xs ∧ op.pops = 1 ∧ op.acts = true ∧ OperandsFit σ op xs := by
  rcases t with v | v | ⟨array, index⟩
  · exact ⟨_, _, rfl, rfl, rfl, .cons (.variable (.inr rfl) h) .nil⟩
  · exact ⟨_, _, rfl, rfl, rfl, .cons (.variable (.inr rfl) h) .nil⟩
  · refine ⟨_, _, rfl, rfl, rfl, .cons (.element h.1 ?_) .nil⟩
    dsimp only
    split
    · exact h.2
    · exact .binary h.2 (by decide) (.value _)

namespace Parser

variable {T : Accepted} {C : Prop}

theorem element_reads : Reads T C element fun t => t.Scoped T.scope :=
  identifier_reads.bind fun _ => (mention_reads _ _).bind fun _ =>
    index_reads.map fun _ c h => ⟨c.2, h⟩

theorem target_reads : Reads T C target fun t => t.Scoped T.scope := by
  have variable_reads {C : Prop} : Reads T C (do return Target.variable (← variableReference))
      fun t => t.Scoped T.scope := variableReference_reads.map fun _ _ h => h
  refine (accept_reads _).bind fun pointer => ?_
  split
  · exact variableReference_reads.map fun _ _ h => h
  · refine (look_reads 1).bind fun _ => .state (fun s => ?_) (fun _ => rfl) ?_
    · split
      · split
        · exact variable_reads
        · exact element_reads
      · exact variable_reads
    · -- Whether a name is a variable does not depend on the order in which it came to be known.
      intro settled s s' twin final
      have kind (name : String) : (s'.symbols.kindOf name = some .variable) =
          (s.symbols.kindOf name = some .variable) := propext <|
        twin.symbols.kindOf_eq_some_iff (final.symbols.fits settled)
      simp only [twin.pending, kind]

theorem storeAll_writes (t : Target) (i : Nat) (vs : List (Located Value)) :
    Writes T (t.Scoped T.scope ∧ ∀ v ∈ vs, v.value.Scoped T.scope) (storeAll t i vs) [] := by
  induction vs generalizing i with
  | nil => exact .pure
  | cons v vs ih =>
    refine .read ((push_reads v).given fun c => c.2 v List.mem_cons_self) fun code => ?_
    refine .after ?_ ((ih (i + 1)).given
      fun c => ⟨c.1.1, fun w hw => c.1.2 w (List.mem_cons_of_mem v hw)⟩)
    refine emit_writes (fun c => ?_) fun c => ?_
    · obtain ⟨op, xs, hstore, pops, acts, fit⟩ := Target.store_eq c.1.1 i
      rw [hstore]
      exact .act (pops ▸ c.2) acts fit
    · obtain ⟨op, xs, hstore, -⟩ := Target.store_eq c.1.1 i
      rw [hstore, placed_append, c.2.placed_eq_nil]
      rfl

theorem values_reads : Reads T C values fun vs => ∀ v ∈ vs, v.value.Scoped T.scope := by
  refine (accept_reads _).bind fun several => ?_
  split
  · exact (commaSeparated_reads expression_reads).bind fun _ => (expect_reads _ _).bind fun _ =>
      .pure fun c => c.1.2
  · exact expression_reads.map fun v _ h => by simpa using h

theorem assignment_writes : Writes T C assignment [] := by
  refine .read target_reads fun place => .read (next_reads _) fun t => ?_
  have store {C : Prop} (h : C → place.Scoped T.scope) :
      Writes T C (do storeAll place 0 (← values)) [] :=
    .read values_reads fun vs => (storeAll_writes place 0 vs).given fun c => ⟨h c.1, c.2⟩
  split
  · exact store fun c => c.1.2
  · exact store fun c => c.1.2
  · exact .fail (by simp)

theorem declareStatement_writes : Writes T C declareStatement [] := by
  refine .read constant_reads fun slot => .read (word_reads _) fun _ => ?_
  refine .read identifier_reads fun name => .read (foldNow_reads slot _) fun n => ?_
  split
  · exact (declare_reads name rfl).writes
  · exact .pure

theorem constStatement_writes : Writes T C constStatement [] :=
  .read identifier_reads fun name => .read (expect_reads _ _) fun _ =>
    .read constant_reads fun e => .read (known_reads e) fun _ => (declare_reads name rfl).writes

theorem arrayLength_reads : Reads T C arrayLength fun n => 1 ≤ n ∧ n ≤ 255 := by
  refine openParen_reads.bind fun _ => constant_reads.bind fun e => ?_
  refine closeParen_reads.bind fun _ => (known_reads e).bind fun n => ?_
  split
  · exact .pure fun _ => by omega
  · exact .fail (by simp)

theorem knownBytes_reads (es : List (Located Expr)) :
    Reads T C (knownBytes es) fun _ => True := by
  induction es generalizing C with
  | nil => exact .pure fun _ => trivial
  | cons e es ih => exact (foldNow_reads e _).bind fun _ => ih.map fun _ _ _ => trivial

theorem initializer_reads : Reads T C initializer fun _ => True :=
  (expect_reads _ _).bind fun _ => (expect_reads _ _).bind fun _ => lastSeen_reads.bind fun _ =>
    (commaSeparated_reads constant_reads).bind fun es => (expect_reads _ _).bind fun _ =>
      (knownBytes_reads es).bind fun _ => lastSeen_reads.map fun _ _ _ => trivial

theorem padded_reads (length : Nat) (given : Located (List UInt8)) :
    Reads T C (padded length given) fun bytes => bytes.length = length := by
  unfold padded
  dsimp only
  split
  · exact .fail (by simp)
  · refine .pure fun _ => ?_
    rw [List.length_append, List.length_replicate]
    omega

theorem arrayBytes_reads :
    Reads T C arrayBytes fun bytes => 1 ≤ bytes.length ∧ bytes.length ≤ 255 := by
  refine peek_reads.bind fun t => ?_
  split
  · refine arrayLength_reads.bind fun length => peek_reads.bind fun t => ?_
    split
    · refine initializer_reads.bind fun given => (padded_reads length given).mono id ?_
      intro bytes c length_eq
      rw [length_eq]
      exact c.1.1.2
    · exact .pure fun c => by simpa using c.1.2
  · refine initializer_reads.bind fun given => ?_
    dsimp only
    split
    · next bounds => exact .pure fun _ => bounds
    · exact .fail (by simp)

theorem dimStatement_writes : Writes T C dimStatement [] :=
  .read identifier_reads fun name => .read arrayBytes_reads fun _ => .declaring
    (emit_writes (fun c => .array name.value c.2.1 c.2.2) fun _ => rfl)

end Parser

end Gamebook.Grammar
