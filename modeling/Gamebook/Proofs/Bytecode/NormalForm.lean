import Mathlib.Data.List.Chain
import Gamebook.Proofs.Bytecode.Expansion

/-!
# Nothing is left to be fused

Fusing goes through a program once and does not look at what a pair became. That is enough: the
opcodes that fusing makes are none of those that it takes (`Fuses.isFused_eq_false`), so a fused
instruction is never half of another pair, neither with what stands before it nor with what follows.
What `optimize` gives is therefore in a normal form (`Normal`), and programs in normal form are
exactly those that it leaves alone (`optimize_eq_self_iff`).
-/

namespace Gamebook.Fusion

variable {code : List Instruction} {i j k : Instruction}

/-- Nothing is left to be done: the program ends, and no two instructions in a row can be fused. -/
structure Normal (code : List Instruction) : Prop where
  ends : code.getLast?.bind Instruction.opcode? = some .END
  unfusible : code.IsChain fun i j => fuse i j = none

/-! ## Fused instructions -/

theorem isFused_of_direct? {pop op : Opcode} (h : direct? pop = some op) :
    isFused op = true ∧ isFused pop = false := by
  unfold direct? at h
  split at h
  all_goals first
    | contradiction
    | exact Option.some.inj h ▸ ⟨rfl, rfl⟩

/-- What a pair became has an opcode that fusing makes. -/
theorem Fuses.isFused_eq_true (h : Fuses i j k) : k.opcode?.any isFused = true := by
  cases h with
  | direct h values targets => exact (isFused_of_direct? h).1
  | _ => rfl

/-- Neither half of a pair has one. -/
theorem Fuses.isFused_eq_false (h : Fuses i j k) :
    i.opcode?.any isFused = false ∧ j.opcode?.any isFused = false := by
  cases h with
  | direct h values targets => exact ⟨rfl, (isFused_of_direct? h).2⟩
  | _ => exact ⟨rfl, rfl⟩

theorem fuse_eq_none_of_forall (h : ∀ k, ¬ Fuses i j k) : fuse i j = none :=
  Option.eq_none_iff_forall_ne_some.mpr fun k hk => h k (fuses_of_fuse hk)

/-- A fused instruction is not the first of a pair. -/
theorem Fuses.fuse_left (h : Fuses i j k) (l : Instruction) : fuse k l = none := by
  refine fuse_eq_none_of_forall fun m hm => ?_
  have := hm.isFused_eq_false.1
  rw [h.isFused_eq_true] at this
  contradiction

/-- A fused instruction is not the second of a pair. -/
theorem Fuses.fuse_right (h : Fuses i j k) (l : Instruction) : fuse l k = none := by
  refine fuse_eq_none_of_forall fun m hm => ?_
  have := hm.isFused_eq_false.2
  rw [h.isFused_eq_true] at this
  contradiction

/-- Nothing is fused with the end. -/
theorem fuse_end (i : Instruction) : fuse i (.op .END) = none := by
  refine fuse_eq_none_of_forall fun k hk => ?_
  generalize e : Instruction.op .END = j at hk
  cases hk with
  | direct h values targets =>
    obtain ⟨rfl, -⟩ := Instruction.code.inj e
    contradiction
  | _ => exact absurd (Instruction.code.inj e).1 (by decide)

/-! ## Whole programs -/

/-- A program still begins with the same instruction, or with what this one and the next became. -/
theorem head?_fusePairs (j : Instruction) (rest : List Instruction) {y : Instruction}
    (hy : y ∈ (fusePairs (j :: rest)).head?) : y = j ∨ ∃ l, Fuses j l y := by
  cases rest with
  | nil => exact .inl (Option.some.inj hy).symm
  | cons l rest =>
    rw [fusePairs] at hy
    split at hy
    · next k hk => exact .inr ⟨l, Option.some.inj hy ▸ fuses_of_fuse hk⟩
    · exact .inl (Option.some.inj hy).symm

theorem unfusible_fusePairs (code : List Instruction) :
    (fusePairs code).IsChain fun i j => fuse i j = none := by
  fun_induction fusePairs code with
  | case1 => exact .nil
  | case2 i => exact .singleton i
  | case3 i j rest k hk ih =>
    exact List.isChain_cons.mpr ⟨fun l _ => (fuses_of_fuse hk).fuse_left l, ih⟩
  | case4 i j rest hk ih =>
    -- what follows is the instruction with which fusing failed, or a fused one
    refine List.isChain_cons.mpr ⟨fun y hy => ?_, ih⟩
    rcases head?_fusePairs j rest hy with rfl | ⟨l, hl⟩
    · exact hk
    · exact hl.fuse_right i

theorem normal_withEnd (h : code.IsChain fun i j => fuse i j = none) : Normal (withEnd code) := by
  unfold withEnd
  split
  · next ends => exact ⟨ends, h⟩
  · refine ⟨by simp [Instruction.op, Instruction.opcode?], ?_⟩
    refine List.isChain_append.mpr ⟨h, .singleton _, fun i _ j hj => ?_⟩
    obtain rfl : Instruction.op .END = j := Option.some.inj hj
    exact fuse_end i

theorem normal_optimize (code : List Instruction) : Normal (optimize code) :=
  normal_withEnd (unfusible_fusePairs code)

theorem fusePairs_eq_self (h : code.IsChain fun i j => fuse i j = none) :
    fusePairs code = code := by
  fun_induction fusePairs code with
  | case1 => rfl
  | case2 i => rfl
  | case3 i j rest k hk ih =>
    have := (List.isChain_cons_cons.mp h).1
    rw [hk] at this
    contradiction
  | case4 i j rest _ ih => rw [ih (List.isChain_cons_cons.mp h).2]

/-- What is in normal form stays as it is, and nothing else does. -/
theorem optimize_eq_self_iff : optimize code = code ↔ Normal code := by
  refine ⟨fun h => h ▸ normal_optimize code, fun h => ?_⟩
  rw [optimize, fusePairs_eq_self h.unfusible, withEnd, if_pos h.ends]

/-- Whatever the program, it ends with an `END` when it is optimized, no two instructions in a row
can be fused, and optimizing it again changes nothing; a program is left alone only if it is like
that from the beginning. -/
theorem optimize_normalizes (code : List Instruction) :
    (optimize code).getLast?.bind Instruction.opcode? = some .END ∧
      ((optimize code).IsChain fun i j => fuse i j = none) ∧
      optimize (optimize code) = optimize code ∧
      (optimize code = code ↔ code.getLast?.bind Instruction.opcode? = some .END ∧
        code.IsChain fun i j => fuse i j = none) := by
  have normal := normal_optimize code
  refine ⟨normal.ends, normal.unfusible, optimize_eq_self_iff.mpr normal, ?_⟩
  rw [optimize_eq_self_iff]
  exact ⟨fun h => ⟨h.ends, h.unfusible⟩, fun h => ⟨h.1, h.2⟩⟩

end Gamebook.Fusion
