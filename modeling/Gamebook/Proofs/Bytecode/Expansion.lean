import Mathlib.Data.List.Basic
import Gamebook.Proofs.Bytecode.Fusion

/-!
# Taking fused instructions apart

Fusing can be undone. `expand` gives the two instructions that a fused one stands for; a program
in which nothing is fused yet (`Unfused`) is what comes out when everything that fusing made of it
is taken apart again, but for an `END` at its end (`expand_optimize`). So which two instructions
were fused can be read off the result: operands that were joined are told apart by how many each
half takes, and no two pairs of opcodes are fused to the same one.

What is no operation is never fused, and some operations are not either (`Alone`). The parts of a
program before and behind such an instruction are optimized on their own (`optimize_append_alone`).
-/

namespace Gamebook.Fusion

/-- The opcode that takes its value from the stack instead of the operand. -/
def stacked? : Opcode → Option Opcode
  | .INK_D => some .POP_INK
  | .PAPER_D => some .POP_PAPER
  | .BORDER_D => some .POP_BORDER
  | .PRINT_D => some .POP_PRINT
  | .BRIGHT_D => some .POP_BRIGHT
  | .FLASH_D => some .POP_FLASH
  | .PICTURE_D => some .POP_PICTURE
  | .DISPLAY_D => some .POP_DISPLAY
  | .SFX_D => some .POP_SFX
  | .TRACK_D => some .POP_TRACK
  | .PLAY_D => some .POP_PLAY
  | .LOOP_D => some .POP_LOOP
  | .CHAR_D => some .POP_CHAR
  | _ => none

/-- The two instructions that a fused one stands for; any other stands for itself. -/
def expand : Instruction → List Instruction
  | .code .SET_D [target, value] => [.code .PUSH_D [value], .code .POP_SET [target]]
  | .code .SET_I [target, value] => [.code .PUSH_I [value], .code .POP_SET [target]]
  | .code .PRINT_I [value] => [.code .PUSH_I [value], .op .POP_PRINT]
  | .code .IF_GOTO [target] => [.op .NOT, .code .IF_N_GOTO [target]]
  | .code op [value] =>
    match stacked? op with
    | some pop => [.code .PUSH_D [value], .op pop]
    | none => [.code op [value]]
  | i => [i]

/-- The opcodes that fusing makes. -/
def isFused (op : Opcode) : Bool :=
  op ∈ [.SET_D, .SET_I, .PRINT_I, .IF_GOTO] || (stacked? op).isSome

/-- The instruction has as many operands as its opcode takes, and is none that fusing makes. -/
def Unfused : Instruction → Prop
  | .code op operands => operands.length = op.operands.length ∧ isFused op = false
  | _ => True

instance : DecidablePred Unfused
  | .label _ => inferInstanceAs (Decidable True)
  | .text _ => inferInstanceAs (Decidable True)
  | .array _ _ => inferInstanceAs (Decidable True)
  | .code op operands =>
    inferInstanceAs (Decidable (operands.length = op.operands.length ∧ isFused op = false))

variable {code before after : List Instruction} {i j k : Instruction}

/-! ## Single instructions -/

theorem stacked?_of_direct? {pop op : Opcode} (h : direct? pop = some op) :
    stacked? op = some pop := by
  unfold direct? at h
  split at h
  all_goals first
    | contradiction
    | exact Option.some.inj h ▸ rfl

/-- What takes a single value from the stack has no operands of its own. -/
theorem operands_of_direct? {pop op : Opcode} (h : direct? pop = some op) : pop.operands = [] := by
  unfold direct? at h
  split at h
  all_goals first
    | contradiction
    | rfl

theorem expand_of_stacked? {op pop : Opcode} (h : stacked? op = some pop) (value : Operand) :
    expand (.code op [value]) = [.code .PUSH_D [value], .op pop] := by
  unfold stacked? at h
  split at h
  all_goals first
    | contradiction
    | exact Option.some.inj h ▸ rfl

theorem expand_of_unfused (h : Unfused i) : expand i = [i] := by
  unfold expand
  split
  · simp [Unfused, isFused] at h
  · simp [Unfused, isFused] at h
  · simp [Unfused, isFused] at h
  · simp [Unfused, isFused] at h
  · next op value _ _ =>
    have unstacked : stacked? op = none := by
      have := h.2
      simp only [isFused, Bool.or_eq_false_iff] at this
      simpa using this.2
    rw [unstacked]
  · rfl

/-- A fused instruction is taken apart into the two it was made of. -/
theorem expand_of_fuses (h : Fuses i j k) (hi : Unfused i) (hj : Unfused j) :
    expand k = [i, j] := by
  cases h with
  | setDirect values targets =>
    obtain ⟨value, rfl⟩ := List.length_eq_one_iff.mp hi.1
    obtain ⟨target, rfl⟩ := List.length_eq_one_iff.mp hj.1
    rfl
  | setIndirect values targets =>
    obtain ⟨value, rfl⟩ := List.length_eq_one_iff.mp hi.1
    obtain ⟨target, rfl⟩ := List.length_eq_one_iff.mp hj.1
    rfl
  | printIndirect values targets =>
    obtain ⟨value, rfl⟩ := List.length_eq_one_iff.mp hi.1
    obtain rfl := List.length_eq_zero_iff.mp hj.1
    rfl
  | negatedJump values targets =>
    obtain rfl := List.length_eq_zero_iff.mp hi.1
    obtain ⟨target, rfl⟩ := List.length_eq_one_iff.mp hj.1
    rfl
  | direct h values targets =>
    obtain ⟨value, rfl⟩ := List.length_eq_one_iff.mp hi.1
    obtain rfl := List.length_eq_zero_iff.mp (hj.1.trans (by rw [operands_of_direct? h]; rfl))
    exact expand_of_stacked? (stacked?_of_direct? h) value

theorem ne_end_of_stacked? {op pop : Opcode} (h : stacked? op = some pop) :
    op ≠ .END ∧ pop ≠ .END := by
  unfold stacked? at h
  split at h
  all_goals first
    | contradiction
    | exact Option.some.inj h ▸ by decide

/-- The last instruction of those that one stands for is an `END` only if that one is. -/
theorem getLast?_expand (i : Instruction) :
    (expand i).getLast?.bind Instruction.opcode? = some .END ↔ i.opcode? = some .END := by
  unfold expand
  split
  case h_5 op value _ _ =>
    cases h : stacked? op with
    | none => rfl
    | some pop => simp [Instruction.op, Instruction.opcode?, ne_end_of_stacked? h]
  all_goals simp [Instruction.op, Instruction.opcode?]

theorem expand_ne_nil (i : Instruction) : expand i ≠ [] := by
  unfold expand
  repeat' split
  all_goals simp

/-! ## Whole programs -/

theorem expand_fusePairs (h : ∀ i ∈ code, Unfused i) : (fusePairs code).flatMap expand = code := by
  fun_induction fusePairs code with
  | case1 => rfl
  | case2 i => simp [expand_of_unfused (h i List.mem_cons_self)]
  | case3 i j rest k hk ih =>
    obtain ⟨hi, hj, hrest⟩ : Unfused i ∧ Unfused j ∧ ∀ i ∈ rest, Unfused i := by simpa using h
    rw [List.flatMap_cons, expand_of_fuses (fuses_of_fuse hk) hi hj, ih hrest]
    rfl
  | case4 i j rest _ ih =>
    obtain ⟨hi, hrest⟩ := List.forall_mem_cons.mp h
    rw [List.flatMap_cons, expand_of_unfused hi, ih hrest]
    rfl

theorem getLast?_flatMap_expand (code : List Instruction) :
    (code.flatMap expand).getLast?.bind Instruction.opcode? = some .END ↔
      code.getLast?.bind Instruction.opcode? = some .END := by
  rcases List.eq_nil_or_concat code with rfl | ⟨front, i, rfl⟩
  · rfl
  · rw [List.concat_eq_append, List.flatMap_append, List.flatMap_singleton,
      List.getLast?_append_of_ne_nil _ (expand_ne_nil i), getLast?_expand, List.getLast?_concat,
      Option.bind_some]

/-- Only an `END` without operands is unfused. -/
theorem ends_iff (h : ∀ i ∈ code, Unfused i) :
    code.getLast?.bind Instruction.opcode? = some .END ↔ code.getLast? = some (.op .END) := by
  cases last : code.getLast? with
  | none => simp
  | some i =>
    have unfused := h i (List.mem_of_getLast? last)
    cases i with
    | code op operands =>
      constructor
      · rintro ⟨⟩
        obtain rfl := List.length_eq_zero_iff.mp unfused.1
        rfl
      · rintro ⟨⟩
        rfl
    | label name => simp [Instruction.opcode?, Instruction.op]
    | text bytes => simp [Instruction.opcode?, Instruction.op]
    | array name bytes => simp [Instruction.opcode?, Instruction.op]

/-! ## What stands alone -/

/-- The instruction is fused with none before or behind it, and is no `END`. -/
structure Alone (i : Instruction) : Prop where
  before : ∀ j, fuse i j = none
  behind : ∀ j, fuse j i = none
  goes_on : i.opcode? ≠ some .END

/-- What is no operation stands alone. -/
theorem alone_of_opcode?_none (h : i.opcode? = none) : Alone i := by
  have goes_on : i.opcode? ≠ some .END := by simp [h]
  cases i with
  | code op operands => contradiction
  | label name => exact ⟨fun j => by cases j <;> rfl, fun j => by cases j <;> rfl, goes_on⟩
  | text bytes => exact ⟨fun j => by cases j <;> rfl, fun j => by cases j <;> rfl, goes_on⟩
  | array name bytes => exact ⟨fun j => by cases j <;> rfl, fun j => by cases j <;> rfl, goes_on⟩

/-- Pairs before and behind what stands alone are fused on their own. -/
theorem fusePairs_append_alone (h : Alone i) (before after : List Instruction) :
    fusePairs (before ++ i :: after) = fusePairs before ++ i :: fusePairs after := by
  have first : fusePairs (i :: after) = i :: fusePairs after := by
    cases after with
    | nil => rfl
    | cons j rest => rw [fusePairs, h.before j]
  fun_induction fusePairs before with
  | case1 => exact first
  | case2 j => simp [fusePairs, h.behind j, first]
  | case3 j k rest l hl ih => simp [fusePairs, hl, ih]
  | case4 j k rest hl ih => simpa [fusePairs, hl] using ih

theorem optimize_append_alone (h : Alone i) (before after : List Instruction) :
    optimize (before ++ i :: after) = fusePairs before ++ i :: optimize after := by
  unfold optimize withEnd
  rw [fusePairs_append_alone h]
  cases behind : fusePairs after with
  | nil => simp [h.goes_on]
  | cons j rest =>
    rw [List.getLast?_append_of_ne_nil _ (List.cons_ne_nil _ _), List.getLast?_cons_cons]
    split <;> simp

theorem optimize_append_cons (h : i.opcode? = none) (before after : List Instruction) :
    optimize (before ++ i :: after) = fusePairs before ++ i :: optimize after :=
  optimize_append_alone (alone_of_opcode?_none h) before after

/-! ## Undoing it -/

/-- Taking apart what was fused gives the program back, with an `END` behind it unless it had one;
and nothing is fused across a label, a text or an array. -/
theorem expand_optimize (h : ∀ i ∈ code, Unfused i) :
    (optimize code).flatMap expand =
        (if code.getLast? = some (.op .END) then code else code ++ [.op .END]) ∧
      ∀ before i after, i.opcode? = none → code = before ++ i :: after →
        optimize code = fusePairs before ++ i :: optimize after := by
  refine ⟨?_, fun before i after alone split => split ▸ optimize_append_cons alone before after⟩
  have ends : (fusePairs code).getLast?.bind Instruction.opcode? = some .END ↔
      code.getLast? = some (.op .END) := by
    rw [← getLast?_flatMap_expand, expand_fusePairs h, ends_iff h]
  unfold optimize withEnd
  simp only [ends]
  split
  · exact expand_fusePairs h
  · rw [List.flatMap_append, expand_fusePairs h]
    rfl

/-- Of two values that are pushed in a row only the second can be fused with the store behind them, a
label stands between a value and its printing, and a negation stands before a jump. -/
def overlappingPairs : List Instruction :=
  [.code .PUSH_D [.literal 7], .code .PUSH_D [.literal 2], .code .POP_SET [.variable (.slot 3)],
    .label "here", .op .POP_INK, .code .PUSH_I [.variable (.slot 3)], .label "there",
    .op .POP_PRINT, .code .PUSH_I [.variable (.slot 3)], .op .NOT, .jump .IF_N_GOTO "there"]

theorem expand_optimize_overlappingPairs :
    (∀ i ∈ overlappingPairs, Unfused i) ∧ (optimize overlappingPairs).length = 10 ∧
      (optimize overlappingPairs).flatMap expand = overlappingPairs ++ [.op .END] := by
  have unfused : ∀ i ∈ overlappingPairs, Unfused i := by decide
  exact ⟨unfused, rfl, (expand_optimize unfused).1⟩

end Gamebook.Fusion
