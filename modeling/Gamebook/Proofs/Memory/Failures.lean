import Gamebook.Proofs.Bytecode.Fusion
import Gamebook.Proofs.Memory.Places

/-!
# Why a program does not get into memory

A program is kept out of memory by the windows, by its layout or by an operand
(`generate_eq_error`). Laying a program out fails if banks run out or are too small, and otherwise
only if two labels or two arrays have one name (`Plan.of_eq_error`). Writing what was laid out fails
at an operand (`encodeBanks_eq_error_of_plan`), and of the names of labels and arrays only if the
program does not have what the operand names (`Context.operand_isReference`).

A program is `Closed` if nothing of this is the case. A closed program may fail to get into memory,
but not for its labels and arrays (`Closed.isReference_of_generate`), and fusing keeps it closed
(`Closed.optimize`).
-/

namespace Gamebook.Memory

/-- Whether the error is about labels or arrays that are there twice or not at all. -/
def GenerateError.isReference : GenerateError → Bool
  | .duplicateLabel _ | .undefinedLabel _ | .undefinedArray _ => true
  | _ => false

/-- Whether the error is about the windows of the banks. -/
def GenerateError.isWindow : GenerateError → Bool
  | .noWindows | .invalidWindow _ => true
  | _ => false

/-- Whether the error is about banks that run out or are too small. -/
def GenerateError.isSpace : GenerateError → Bool
  | .blockTooBig .. | .tooManyBanks _ => true
  | _ => false

theorem GenerateError.isReference_of_isWindow {e : GenerateError} (h : e.isWindow = true) :
    e.isReference = false := by
  cases e <;> simp_all [isWindow, isReference]

theorem GenerateError.isReference_of_isSpace {e : GenerateError} (h : e.isSpace = true) :
    e.isReference = false := by
  cases e <;> simp_all [isSpace, isReference]

theorem bind_eq_error {ε α β : Type} {x : Except ε α} {f : α → Except ε β} {e : ε} :
    (x >>= f) = .error e ↔ x = .error e ∨ ∃ a, x = .ok a ∧ f a = .error e := by
  cases x <;> simp [bind, Except.bind]

/-! ## Laying out -/

section Layout

variable {o : Options} {f : Failure}

theorem Plan.isSpace_of_switch {p : Plan} {size : Nat} (h : p.switch o size = .error f) :
    f.cause.isSpace = true := by
  rcases Plan.switch_eq_error h with cause | ⟨_, -, cause⟩
  all_goals rw [cause]; rfl

theorem Plan.isSpace_of_makeRoom {p : Plan} {size : Nat} (h : p.makeRoom o size = .error f) :
    f.cause.isSpace = true := by
  unfold Plan.makeRoom at h
  split at h
  · exact Plan.isSpace_of_switch h
  · contradiction

theorem Plan.isSpace_of_placeSliced {p : Plan} {rest : List UInt8}
    (h : p.placeSliced o rest = .error f) : f.cause.isSpace = true := by
  fun_induction Plan.placeSliced o p rest with
  | case1 p rest fits => contradiction
  | case2 p rest long roomy _ e he =>
    exact Except.error.inj h ▸ Plan.isSpace_of_switch he
  | case3 p rest long roomy _ q hq ih => exact ih h
  | case4 p rest long cramped e he => exact Except.error.inj h ▸ Plan.isSpace_of_switch he
  | case5 p rest long cramped q hq _ ih => exact ih h

/-- An instruction is refused for its name only if the name is there already. -/
theorem Draft.place_eq_error {d : Draft} {i : Instruction} (h : d.plan.place o i = .error f) :
    f.cause.isSpace = true ∨
      (∃ name ∈ i.label?, name ∈ labelNames d.banks.flatten) ∨
        ∃ name ∈ i.array?, name ∈ arrayNames d.banks.flatten := by
  cases i with
  | label name =>
    simp only [Plan.place, d.mem_plan_labels] at h
    split at h
    · next there => exact .inr (.inl ⟨name, rfl, there⟩)
    · contradiction
  | text bytes =>
    left
    simp only [Plan.place, Plan.placeText] at h
    split at h
    · exact Plan.isSpace_of_placeSliced h
    · rcases bind_eq_error.mp h with h | ⟨_, -, h⟩
      · exact Plan.isSpace_of_makeRoom h
      · contradiction
  | array name bytes =>
    rcases bind_eq_error.mp h with h | ⟨q, hq, h⟩
    · exact .inl (Plan.isSpace_of_makeRoom h)
    · obtain ⟨e, rfl, -, same⟩ := Draft.fill_of_makeRoom hq
      simp only [e.mem_plan_arrays, same] at h
      split at h
      · next there => exact .inr (.inr ⟨name, rfl, there⟩)
      · contradiction
  | code op xs =>
    left
    rcases bind_eq_error.mp h with h | ⟨_, -, h⟩
    · exact Plan.isSpace_of_makeRoom h
    · contradiction

theorem not_nodup_filterMap_concat {g : Instruction → Option String} {code : List Instruction}
    {i : Instruction} {name : String} (hi : name ∈ g i) (there : name ∈ code.filterMap g) :
    ¬ ((code ++ [i]).filterMap g).Nodup := by
  intro nodup
  rw [List.filterMap_append, List.nodup_append] at nodup
  exact nodup.2.2 name there name (by simp [Option.mem_def.mp hi]) rfl

/-- Laying out fails for a name only if two labels or two arrays have it. -/
theorem Plan.of_eq_error {code : List Instruction} (h : Plan.of o code = .error f) :
    f.cause.isSpace = true ∨ ¬ (labelNames code).Nodup ∨ ¬ (arrayNames code).Nodup := by
  -- from the back, so that the induction follows the program as far as it was laid out
  induction code using List.reverseRecOn with
  | nil => contradiction
  | append_singleton code i ih =>
    rw [Plan.of, List.foldlM_append] at h
    rcases bind_eq_error.mp h with before | ⟨p, hp, h⟩
    · refine (ih before).imp_right (Or.imp (mt fun nodup => ?_) (mt fun nodup => ?_))
      · rw [labelNames, List.filterMap_append] at nodup
        exact nodup.of_append_left
      · rw [arrayNames, List.filterMap_append] at nodup
        exact nodup.of_append_left
    · obtain ⟨d, rfl, fill, -⟩ := Plan.of_eq_ok hp
      rw [List.foldlM_cons] at h
      rcases bind_eq_error.mp h with h | ⟨_, -, h⟩
      · have cases := Draft.place_eq_error h
        rw [fill.spread.labelNames_flatten, fill.spread.arrayNames_flatten] at cases
        rcases cases with other | ⟨name, hi, there⟩ | ⟨name, hi, there⟩
        · exact .inl other
        · exact .inr (.inl (not_nodup_filterMap_concat hi there))
        · exact .inr (.inr (not_nodup_filterMap_concat hi there))
      · contradiction

end Layout

/-! ## Writing -/

theorem not_mem_of_lookup {β : Type} {entries : List (String × β)} {name : String}
    (missing : entries.lookup name = none) : name ∉ entries.map (·.1) := by
  intro there
  obtain ⟨entry, hentry, rfl⟩ := List.mem_map.mp there
  simpa using List.lookup_eq_none_iff.mp missing entry hentry

namespace Context

variable {c : Context} {o : Options} {op : Opcode} {e : GenerateError}

theorem isReference_of_slot {v : Variable} (h : c.slot v = .error e) : e.isReference = false := by
  rcases bind_eq_error.mp h with h | ⟨number, -, h⟩
  · unfold baseSlot at h
    split at h
    · contradiction
    · split at h
      · contradiction
      · exact Except.error.inj h ▸ rfl
  · dsimp only at h
    split at h
    · exact Except.error.inj h ▸ rfl
    · contradiction

theorem isReference_of_constant {width : Constant.Width} {x : Constant.Expr}
    (h : c.constant width x = .error e) : e.isReference = false := by
  unfold constant at h
  split at h
  · contradiction
  · exact Except.error.inj h ▸ rfl

theorem isReference_of_element {x : Element} (there : x.array ∈ c.arrays.map (·.1))
    (h : c.element x = .error e) : e.isReference = false := by
  unfold element at h
  split at h
  · next missing => exact absurd there (not_mem_of_lookup missing)
  · split at h
    · exact Except.error.inj h ▸ rfl
    · split at h
      · contradiction
      · exact Except.error.inj h ▸ rfl

/-- An operand that names a label or an array that is there can have other errors only. -/
theorem operand_isReference {shape : OperandShape} {x : Operand}
    (label : ∀ name, x = .label name → name ∈ c.labels.map (·.1))
    (array : ∀ y, x = .element y → y.array ∈ c.arrays.map (·.1))
    (h : c.operand op shape x = .error e) : e.isReference = false := by
  unfold operand at h
  split at h
  · contradiction
  · contradiction
  · rcases bind_eq_error.mp h with h | ⟨_, -, h⟩
    · exact isReference_of_slot h
    · contradiction
  · rcases bind_eq_error.mp h with h | ⟨_, -, h⟩
    · exact isReference_of_slot h
    · contradiction
  · rcases bind_eq_error.mp h with h | ⟨_, -, h⟩
    · exact isReference_of_constant h
    · contradiction
  · contradiction
  · contradiction
  · rcases bind_eq_error.mp h with h | ⟨_, -, h⟩
    · exact isReference_of_constant h
    · contradiction
  · next name =>
    split at h
    · contradiction
    · next missing => exact absurd (label name rfl) (not_mem_of_lookup missing)
  · next y =>
    rcases bind_eq_error.mp h with h | ⟨_, -, h⟩
    · exact isReference_of_element (array y rfl) h
    · contradiction
  · exact Except.error.inj h ▸ rfl

theorem operands_eq_error {shapes : List OperandShape} {xs : List Operand}
    (h : c.operands op shapes xs = .error e) :
    ∃ shape x, (shape, x) ∈ shapes.zip xs ∧ c.operand op shape x = .error e := by
  fun_induction operands c op shapes xs with
  | case1 shape shapes x xs ih =>
    rcases bind_eq_error.mp h with h | ⟨_, -, h⟩
    · exact ⟨shape, x, List.mem_cons_self, h⟩
    · rcases bind_eq_error.mp h with h | ⟨_, -, h⟩
      · obtain ⟨shape', x', mem, h'⟩ := ih h
        exact ⟨shape', x', List.mem_cons_of_mem _ mem, h'⟩
      · contradiction
  | case2 => contradiction

/-- Only operations can fail to be written: they have too many or too few operands, or one that has
no bytes. -/
theorem encode_eq_error {bank : Nat} {p : Piece} (h : c.encode o bank p = .error e) :
    ∃ op xs, p = .item (.code op xs) ∧
      (op.operands.length ≠ xs.length ∧
          e = .operandCount op.mnemonic op.operands.length xs.length ∨
        ∃ shape x, (shape, x) ∈ op.operands.zip xs ∧ c.operand op shape x = .error e) := by
  unfold encode at h
  split at h
  · contradiction
  · contradiction
  · contradiction
  · next op xs =>
    refine ⟨op, xs, rfl, ?_⟩
    split at h
    · next other => exact .inl ⟨other, (Except.error.inj h).symm⟩
    · rcases bind_eq_error.mp h with h | ⟨_, -, h⟩
      · exact .inr (operands_eq_error h)
      · contradiction
  · contradiction

theorem encodeBank_eq_error {bank : Nat} {ps : List Piece}
    (h : c.encodeBank o bank ps = .error e) : ∃ p ∈ ps, c.encode o bank p = .error e := by
  induction ps with
  | nil => contradiction
  | cons p ps ih =>
    rcases bind_eq_error.mp h with h | ⟨_, -, h⟩
    · exact ⟨p, List.mem_cons_self, h⟩
    · rcases bind_eq_error.mp h with h | ⟨_, -, h⟩
      · obtain ⟨q, hq, h⟩ := ih h
        exact ⟨q, List.mem_cons_of_mem p hq, h⟩
      · contradiction

/-- Writing the banks fails at some piece of them. -/
theorem encodeBanks_eq_error {bank : Nat} {banks : List (List Piece)}
    (h : c.encodeBanks o bank banks = .error e) :
    ∃ k, ∃ p ∈ banks.flatten, c.encode o k p = .error e := by
  induction banks generalizing bank with
  | nil => contradiction
  | cons b banks ih =>
    rw [List.flatten_cons]
    rcases bind_eq_error.mp h with h | ⟨_, -, h⟩
    · obtain ⟨p, hp, h⟩ := encodeBank_eq_error h
      exact ⟨bank, p, List.mem_append_left _ hp, h⟩
    · rcases bind_eq_error.mp h with h | ⟨_, -, h⟩
      · obtain ⟨k, p, hp, h⟩ := ih h
        exact ⟨k, p, List.mem_append_right _ hp, h⟩
      · contradiction

end Context

/-! ## Closed programs -/

/-- Every operation in the banks is one of the program. -/
theorem Spread.code_mem {slice : Bool} {code : List Instruction} {banks : List (List Instruction)}
    {op : Opcode} {xs : List Operand} (h : Spread slice code banks)
    (mem : .code op xs ∈ banks.flatten) : .code op xs ∈ code := by
  induction h with
  | done => simp at mem
  | put _ ih =>
    rcases List.mem_cons.mp mem with rfl | mem
    · exact List.mem_cons_self
    · exact List.mem_cons_of_mem _ (ih mem)
  | turn _ ih => exact ih mem
  | cut _ _ _ _ ih =>
    rcases List.mem_cons.mp mem with e | mem
    · contradiction
    · rcases List.mem_cons.mp (ih mem) with e | mem
      · contradiction
      · exact List.mem_cons_of_mem _ mem

theorem mem_of_item_mem_sealed {banks : List (List Instruction)} {i : Instruction}
    (h : .item i ∈ (sealed banks).flatten) : i ∈ banks.flatten := by
  fun_induction sealed banks with
  | case1 => simp at h
  | case2 b => simpa using h
  | case3 b c bs ih =>
    rcases List.mem_append.mp h with h | h
    · exact List.mem_append_left _ (by simpa [bridged] using h)
    · exact List.mem_append_right _ (ih h)

/-- What is not written is an operation of the program. -/
theorem encodeBanks_eq_error_of_plan {o : Options} {c : Context} {code : List Instruction}
    {p : Plan} {e : GenerateError} (hp : Plan.of o code = .ok p)
    (he : c.encodeBanks o 0 p.banks = .error e) :
    ∃ op xs, .code op xs ∈ code ∧
      (op.operands.length ≠ xs.length ∧
          e = .operandCount op.mnemonic op.operands.length xs.length ∨
        ∃ shape x, (shape, x) ∈ op.operands.zip xs ∧ c.operand op shape x = .error e) := by
  obtain ⟨d, rfl, fill, -⟩ := Plan.of_eq_ok hp
  rw [d.plan_banks] at he
  obtain ⟨k, p, hp, he⟩ := Context.encodeBanks_eq_error he
  obtain ⟨op, xs, rfl, cause⟩ := Context.encode_eq_error he
  exact ⟨op, xs, fill.spread.code_mem (mem_of_item_mem_sealed hp), cause⟩

/-- All that can keep a program out of memory: the windows, the layout, or an operand. -/
theorem generate_eq_error {o : Options} {symbols : Symbol.Table} {code : List Instruction}
    {log : Log} {e : GenerateError} (hg : generate o symbols code = (log, .error e)) :
    e.isWindow = true ∨ (∃ f, Plan.of o code = .error f ∧ f.cause = e) ∨
      ∃ p, Plan.of o code = .ok p ∧
        (Context.of o symbols p).encodeBanks o 0 p.banks = .error e := by
  unfold generate at hg
  split at hg
  · next e' he =>
    obtain rfl : e' = e := by simpa using congrArg Prod.snd hg
    unfold Options.check at he
    left
    split at he
    · exact Except.error.inj he ▸ rfl
    · split at he
      · exact Except.error.inj he ▸ rfl
      · contradiction
  · split at hg
    · next f hf => exact .inr (.inl ⟨f, hf, by simpa using congrArg Prod.snd hg⟩)
    · next p hp =>
      dsimp only at hg
      split at hg
      · next e' he =>
        obtain rfl : e' = e := by simpa using congrArg Prod.snd hg
        exact .inr (.inr ⟨p, hp, he⟩)
      · simp at hg

/-- Labels and arrays have names of their own, and operands name none that are not there. -/
structure Closed (code : List Instruction) : Prop where
  labels_nodup : (labelNames code).Nodup
  arrays_nodup : (arrayNames code).Nodup
  label_mem : ∀ op xs name, .code op xs ∈ code → .label name ∈ xs → name ∈ labelNames code
  array_mem : ∀ op xs e, .code op xs ∈ code → .element e ∈ xs → e.array ∈ arrayNames code

namespace Closed

variable {code : List Instruction}

/-- A closed program is laid out unless banks run out or are too small. -/
theorem isSpace_of_plan {o : Options} {f : Failure} (h : Closed code)
    (hf : Plan.of o code = .error f) : f.cause.isSpace = true := by
  rcases Plan.of_eq_error hf with space | twice | twice
  · exact space
  · exact absurd h.labels_nodup twice
  · exact absurd h.arrays_nodup twice

section Operands

variable {o : Options} {symbols : Symbol.Table} {p : Plan} {op : Opcode} {xs : List Operand}
  {x : Operand}

/-- A label that an operand names has an address. -/
theorem label_mem_of_plan (h : Closed code) (hp : Plan.of o code = .ok p)
    (mem : .code op xs ∈ code) (hx : x ∈ xs) (name : String) (hname : x = .label name) :
    name ∈ (Context.of o symbols p).labels.map (·.1) := by
  obtain ⟨d, rfl, fill, -⟩ := Plan.of_eq_ok hp
  have there : name ∈ d.plan.labels.map (·.1) := by
    rw [d.mem_plan_labels, fill.spread.labelNames_flatten]
    exact h.label_mem op xs name mem (hname ▸ hx)
  rwa [Context.of, List.map_map]

/-- An array that an operand names has an address. -/
theorem array_mem_of_plan (h : Closed code) (hp : Plan.of o code = .ok p)
    (mem : .code op xs ∈ code) (hx : x ∈ xs) (e : Element) (he : x = .element e) :
    e.array ∈ (Context.of o symbols p).arrays.map (·.1) := by
  obtain ⟨d, rfl, fill, -⟩ := Plan.of_eq_ok hp
  have there : e.array ∈ d.plan.arrays.map (·.1) := by
    rw [d.mem_plan_arrays, fill.spread.arrayNames_flatten]
    exact h.array_mem op xs e mem (he ▸ hx)
  rwa [Context.of, List.map_map]

end Operands

theorem optimize (h : Closed code) : Closed (Fusion.optimize code) := by
  have labels : labelNames (Fusion.optimize code) = labelNames code :=
    Fusion.filterMap_optimize (fun _ _ => rfl) code
  have arrays : arrayNames (Fusion.optimize code) = arrayNames code :=
    Fusion.filterMap_optimize (fun _ _ => rfl) code
  refine ⟨labels ▸ h.labels_nodup, arrays ▸ h.arrays_nodup, ?_, ?_⟩
  · intro op xs name mem hx
    obtain ⟨op', xs', mem', hx'⟩ := Fusion.operand_of_optimize mem hx
    exact labels ▸ h.label_mem op' xs' name mem' hx'
  · intro op xs e mem hx
    obtain ⟨op', xs', mem', hx'⟩ := Fusion.operand_of_optimize mem hx
    exact arrays ▸ h.array_mem op' xs' e mem' hx'

/-- A closed program does not fail to get into memory for its labels and arrays. -/
theorem isReference_of_generate {o : Options} {symbols : Symbol.Table} {log : Log}
    {e : GenerateError} (h : Closed code) (hg : generate o symbols code = (log, .error e)) :
    e.isReference = false := by
  rcases generate_eq_error hg with window | ⟨f, hf, rfl⟩ | ⟨p, hp, he⟩
  · exact GenerateError.isReference_of_isWindow window
  · exact GenerateError.isReference_of_isSpace (h.isSpace_of_plan hf)
  · obtain ⟨op, xs, mem, ⟨-, rfl⟩ | ⟨shape, x, hx, he⟩⟩ := encodeBanks_eq_error_of_plan hp he
    · rfl
    · have hx := (List.of_mem_zip hx).2
      exact Context.operand_isReference (h.label_mem_of_plan hp mem hx)
        (h.array_mem_of_plan hp mem hx) he

end Closed

end Gamebook.Memory
