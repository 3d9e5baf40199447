import Gamebook.Bytecode.Fusion

/-!
# What fusing keeps

There are five ways to fuse two instructions (`Fuses`). Both are operations, and what they become is
an operation again, on operands that they had (`fuse_eq_some`). So labels, texts and arrays stay
what and where they are among each other (`filterMap_optimize`), and no operand appears that was not
there before (`operand_of_optimize`).
-/

namespace Gamebook.Fusion

/-- The third instruction does the work of the first two. -/
inductive Fuses : Instruction → Instruction → Instruction → Prop
  | setDirect (values targets : List Operand) :
    Fuses (.code .PUSH_D values) (.code .POP_SET targets) (.code .SET_D (targets ++ values))
  | setIndirect (values targets : List Operand) :
    Fuses (.code .PUSH_I values) (.code .POP_SET targets) (.code .SET_I (targets ++ values))
  | printIndirect (values targets : List Operand) :
    Fuses (.code .PUSH_I values) (.code .POP_PRINT targets) (.code .PRINT_I values)
  | negatedJump (values targets : List Operand) :
    Fuses (.code .NOT values) (.code .IF_N_GOTO targets) (.code .IF_GOTO targets)
  | direct {pop op : Opcode} (h : direct? pop = some op) (values targets : List Operand) :
    Fuses (.code .PUSH_D values) (.code pop targets) (.code op values)

/-- All that fusing does. -/
theorem fuses_of_fuse {i j k : Instruction} (h : fuse i j = some k) : Fuses i j k := by
  unfold fuse at h
  split at h
  · unfold fuseCode at h
    split at h
    · exact Option.some.inj h ▸ .setDirect _ _
    · exact Option.some.inj h ▸ .setIndirect _ _
    · exact Option.some.inj h ▸ .printIndirect _ _
    · exact Option.some.inj h ▸ .negatedJump _ _
    · obtain ⟨op, hop, rfl⟩ := Option.map_eq_some_iff.mp h
      exact .direct hop _ _
    · contradiction
  · contradiction

/-- Fusing turns two operations into one, whose operands are among theirs. -/
theorem fuse_eq_some {i j k : Instruction} (h : fuse i j = some k) :
    ∃ first values second targets op xs, i = .code first values ∧ j = .code second targets ∧
      k = .code op xs ∧ ∀ x ∈ xs, x ∈ values ∨ x ∈ targets := by
  cases fuses_of_fuse h with
  | setDirect values targets =>
    exact ⟨_, _, _, _, _, _, rfl, rfl, rfl, fun x hx => (List.mem_append.mp hx).symm⟩
  | setIndirect values targets =>
    exact ⟨_, _, _, _, _, _, rfl, rfl, rfl, fun x hx => (List.mem_append.mp hx).symm⟩
  | printIndirect values targets => exact ⟨_, _, _, _, _, _, rfl, rfl, rfl, fun x hx => .inl hx⟩
  | negatedJump values targets => exact ⟨_, _, _, _, _, _, rfl, rfl, rfl, fun x hx => .inr hx⟩
  | direct _ values targets => exact ⟨_, _, _, _, _, _, rfl, rfl, rfl, fun x hx => .inl hx⟩

/-- What holds of all instructions of a program, and of the one that two of them are fused to, holds
of all instructions after fusing. -/
theorem forall_mem_fusePairs {P : Instruction → Prop}
    (fused : ∀ {i j k}, Fuses i j k → P i → P j → P k) {code : List Instruction}
    (h : ∀ i ∈ code, P i) : ∀ i ∈ fusePairs code, P i := by
  fun_induction fusePairs code with
  | case1 => exact h
  | case2 i => exact h
  | case3 i j rest k hk ih =>
    obtain ⟨hi, hj, hrest⟩ : P i ∧ P j ∧ ∀ i ∈ rest, P i := by simpa using h
    exact List.forall_mem_cons.mpr ⟨fused (fuses_of_fuse hk) hi hj, ih hrest⟩
  | case4 i j rest _ ih =>
    obtain ⟨hi, hrest⟩ := List.forall_mem_cons.mp h
    exact List.forall_mem_cons.mpr ⟨hi, ih hrest⟩

section Found

variable {α : Type} {f : Instruction → Option α} (hf : ∀ op xs, f (.code op xs) = none)

include hf

theorem filterMap_fusePairs (code : List Instruction) :
    (fusePairs code).filterMap f = code.filterMap f := by
  fun_induction fusePairs code with
  | case1 => rfl
  | case2 i => rfl
  | case3 i j rest k hk ih =>
    obtain ⟨_, _, _, _, _, _, rfl, rfl, rfl, -⟩ := fuse_eq_some hk
    simp [hf, ih]
  | case4 i j rest _ ih => rw [List.filterMap_cons, ih, ← List.filterMap_cons]

/-- What is found in the labels, texts and arrays of a program is found in the same order after
fusing. -/
theorem filterMap_optimize (code : List Instruction) :
    (optimize code).filterMap f = code.filterMap f := by
  unfold optimize withEnd
  split
  · exact filterMap_fusePairs hf code
  · rw [List.filterMap_append, filterMap_fusePairs hf]
    simp [Instruction.op, hf]

end Found

theorem operand_of_fusePairs {code : List Instruction} {op : Opcode} {xs : List Operand}
    {x : Operand} (h : .code op xs ∈ fusePairs code) (hx : x ∈ xs) :
    ∃ op' xs', .code op' xs' ∈ code ∧ x ∈ xs' := by
  fun_induction fusePairs code with
  | case1 => simp at h
  | case2 i => exact ⟨op, xs, h, hx⟩
  | case3 i j rest k hk ih =>
    obtain ⟨first, values, second, targets, _, _, rfl, rfl, rfl, among⟩ := fuse_eq_some hk
    rcases List.mem_cons.mp h with e | h
    · obtain ⟨rfl, rfl⟩ := Instruction.code.inj e
      rcases among x hx with hx | hx
      · exact ⟨first, values, by simp, hx⟩
      · exact ⟨second, targets, by simp, hx⟩
    · obtain ⟨op', xs', mem, hx'⟩ := ih h
      exact ⟨op', xs', by simp [mem], hx'⟩
  | case4 i j rest _ ih =>
    rcases List.mem_cons.mp h with rfl | h
    · exact ⟨op, xs, List.mem_cons_self, hx⟩
    · obtain ⟨op', xs', mem, hx'⟩ := ih h
      exact ⟨op', xs', List.mem_cons_of_mem i mem, hx'⟩

/-- Every operand after fusing was an operand before. -/
theorem operand_of_optimize {code : List Instruction} {op : Opcode} {xs : List Operand}
    {x : Operand} (h : .code op xs ∈ optimize code) (hx : x ∈ xs) :
    ∃ op' xs', .code op' xs' ∈ code ∧ x ∈ xs' := by
  unfold optimize withEnd at h
  split at h
  · exact operand_of_fusePairs h hx
  · rcases List.mem_append.mp h with h | h
    · exact operand_of_fusePairs h hx
    · obtain ⟨-, rfl⟩ := Instruction.code.inj (List.mem_singleton.mp h)
      simp at hx

end Gamebook.Fusion
