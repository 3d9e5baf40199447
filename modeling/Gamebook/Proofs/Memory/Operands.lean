import Gamebook.Proofs.Bytecode.Prose
import Gamebook.Proofs.Constant.Evaluation
import Gamebook.Proofs.Memory.Failures

/-!
# Programs whose operands can be written

A program is `Encodable` if it is closed, all its operands have the form that their opcode asks for,
and the constants and variables that they name are declared. Of such a program no operand is refused
for what it is, only for what it comes to: a number that is too great, an index that is not in the
array, or a constant without a value. With the windows and the room in the banks, which no program
can know of, these are all the errors there are (`Encodable.remains_of_generate`).

Fusing and compressing keep a program encodable (`Encodable.optimize`, `Encodable.replace`).
-/

namespace Gamebook.Memory

/-- The errors that an encodable program can have. -/
inductive GenerateError.Remains : GenerateError → Prop
  | noWindows : Remains .noWindows
  | invalidWindow (w : Window) : Remains (.invalidWindow w)
  | blockTooBig (size capacity : Nat) : Remains (.blockTooBig size capacity)
  | tooManyBanks (limit : Nat) : Remains (.tooManyBanks limit)
  | variableRange (number : Nat) : Remains (.variableRange number)
  | indexOutOfBounds (array : String) (index : Int) (length : Nat) :
    Remains (.indexOutOfBounds array index length)
  | divisionByZero : Remains (.constant .divisionByZero)
  | invalidShift (amount : Int64) : Remains (.constant (.invalidShift amount))
  | outOfRange (value : Int64) (width : Constant.Width) :
    Remains (.constant (.outOfRange value width))

namespace GenerateError

variable {e : GenerateError}

theorem Remains.of_isWindow (h : e.isWindow = true) : e.Remains := by
  cases e with
  | noWindows => exact .noWindows
  | invalidWindow w => exact .invalidWindow w
  | _ => simp [isWindow] at h

theorem Remains.of_isSpace (h : e.isSpace = true) : e.Remains := by
  cases e with
  | blockTooBig size capacity => exact .blockTooBig size capacity
  | tooManyBanks limit => exact .tooManyBanks limit
  | _ => simp [isSpace] at h

/-- The error is one that can remain, or the quotient that has no value was met. -/
def RemainsOrOverflows (e : GenerateError) : Prop :=
  e.Remains ∨ e = .constant .quotientOverflow

theorem RemainsOrOverflows.of_isArithmetic {error : Constant.EvalError}
    (h : error.isArithmetic = true) : (constant error).RemainsOrOverflows := by
  cases error with
  | divisionByZero => exact .inl .divisionByZero
  | invalidShift amount => exact .inl (.invalidShift amount)
  | quotientOverflow => exact .inr rfl
  | _ => exact absurd h Bool.false_ne_true

end GenerateError

/-- The constants and the variables of the scope are declared. -/
structure Declares (symbols : Symbol.Table) (σ : Scope) : Prop where
  constant_known : ∀ name, σ .constant name → ∃ value, symbols.value? name = some value
  variable_known : ∀ name, σ .variable name → ∃ number, symbols.slot? name = some number

namespace Context

variable {σ : Scope} {c : Context} {op : Opcode} {e : GenerateError}

theorem remains_of_slot {v : Variable} (names : Declares c.symbols σ) (hv : v.Scoped σ)
    (h : c.slot v = .error e) : e.RemainsOrOverflows := by
  rcases bind_eq_error.mp h with h | ⟨number, -, h⟩
  · unfold baseSlot at h
    split at h
    · contradiction
    · next name base =>
      rw [Variable.Scoped, base] at hv
      obtain ⟨number, hnumber⟩ := names.variable_known name hv
      rw [hnumber] at h
      contradiction
  · dsimp only at h
    split at h
    · exact Except.error.inj h ▸ .inl (.variableRange _)
    · contradiction

theorem remains_of_constant {width : Constant.Width} {x : Constant.Expr}
    (names : Declares c.symbols σ) (hx : x.Scoped σ) (h : c.constant width x = .error e) :
    e.RemainsOrOverflows := by
  unfold constant at h
  split at h
  · contradiction
  · next error failed =>
    obtain rfl := Except.error.inj h
    rcases bind_eq_error.mp failed with failed | ⟨value, -, failed⟩
    · exact .of_isArithmetic (Constant.Expr.isArithmetic_of_eval hx names.constant_known failed)
    · unfold Constant.Width.check at failed
      split at failed
      · contradiction
      · exact Except.error.inj failed ▸ .inl (.outOfRange _ _)

theorem remains_of_element {x : Element} (names : Declares c.symbols σ)
    (there : x.array ∈ c.arrays.map (·.1)) (hx : x.index.Scoped σ)
    (h : c.element x = .error e) : e.RemainsOrOverflows := by
  unfold element at h
  split at h
  · next missing => exact absurd there (not_mem_of_lookup missing)
  · split at h
    · next error failed =>
      obtain rfl := Except.error.inj h
      exact .of_isArithmetic (Constant.Expr.isArithmetic_of_eval hx names.constant_known failed)
    · split at h
      · contradiction
      · exact Except.error.inj h ▸ .inl (.indexOutOfBounds _ _ _)

/-- An operand that fits is refused only for what it comes to. -/
theorem remains_of_operand {shape : OperandShape} {x : Operand} (names : Declares c.symbols σ)
    (label : ∀ name, x = .label name → name ∈ c.labels.map (·.1))
    (array : ∀ y, x = .element y → y.array ∈ c.arrays.map (·.1))
    (fits : x.Fits σ shape) (h : c.operand op shape x = .error e) : e.RemainsOrOverflows := by
  cases fits with
  | literal byte nowhere => cases shape <;> contradiction
  | word value => contradiction
  | «variable» forms hv =>
    rcases forms with rfl | rfl
    all_goals
      rcases bind_eq_error.mp h with h | ⟨_, -, h⟩
      · exact remains_of_slot names hv h
      · contradiction
  | @constant _ _ width form hx =>
    subst form
    cases width
    all_goals
      rcases bind_eq_error.mp h with h | ⟨_, -, h⟩
      · exact remains_of_constant names hx h
      · contradiction
  | @label name _ =>
    simp only [operand] at h
    split at h
    · contradiction
    · next missing => exact absurd (label name rfl) (not_mem_of_lookup missing)
  | @element y _ hx =>
    rcases bind_eq_error.mp h with h | ⟨_, -, h⟩
    · exact remains_of_element names (array y rfl) hx h
    · contradiction

end Context

/-! ## Encodable programs -/

/-- Other texts do not open a closed program. -/
theorem Closed.replace {code : List Instruction} (h : Closed code) (texts : List (List UInt8)) :
    Closed (Prose.replace code texts) := by
  have labels : labelNames (Prose.replace code texts) = labelNames code :=
    Prose.filterMap_replace (fun _ => rfl) code texts
  have arrays : arrayNames (Prose.replace code texts) = arrayNames code :=
    Prose.filterMap_replace (fun _ => rfl) code texts
  have code_mem {op : Opcode} {xs : List Operand} (mem : .code op xs ∈ Prose.replace code texts) :
      .code op xs ∈ code := by simpa using Prose.mem_replace mem
  exact ⟨labels ▸ h.labels_nodup, arrays ▸ h.arrays_nodup,
    fun op xs name mem hx => labels ▸ h.label_mem op xs name (code_mem mem) hx,
    fun op xs e mem hx => arrays ▸ h.array_mem op xs e (code_mem mem) hx⟩

/-- There is nothing wrong with any operand by itself. -/
structure Encodable (symbols : Symbol.Table) (σ : Scope) (code : List Instruction) : Prop where
  closed : Closed code
  names : Declares symbols σ
  fit : ∀ i ∈ code, i.Scoped σ

theorem fits_of_mem_zip {σ : Scope} {shapes : List OperandShape} {xs : List Operand}
    {shape : OperandShape} {x : Operand} (h : List.Forall₂ (Operand.Fits σ) shapes xs)
    (mem : (shape, x) ∈ shapes.zip xs) : x.Fits σ shape := by
  induction h with
  | nil => simp at mem
  | cons fits _ ih =>
    rcases List.mem_cons.mp mem with e | mem
    · obtain ⟨rfl, rfl⟩ := Prod.mk.inj e
      exact fits
    · exact ih mem

/-- The operands of fused instructions fit where they are put. -/
theorem scoped_of_fuses {σ : Scope} {i j k : Instruction} (h : Fusion.Fuses i j k)
    (hi : i.Scoped σ) (hj : j.Scoped σ) : k.Scoped σ := by
  cases h with
  | setDirect values targets => exact List.rel_append hj hi
  | setIndirect values targets => exact List.rel_append hj hi
  | printIndirect values targets => exact hi
  | negatedJump values targets => exact hj
  | @direct pop op h values targets =>
    have operands : op.operands = [.byte] := by
      unfold Fusion.direct? at h
      split at h <;> simp only [Option.some.injEq, reduceCtorEq] at h <;> exact h ▸ rfl
    change OperandsFit σ op values
    rw [OperandsFit, operands]
    exact hi

namespace Encodable

variable {symbols : Symbol.Table} {σ : Scope} {code : List Instruction}

theorem optimize (h : Encodable symbols σ code) : Encodable symbols σ (Fusion.optimize code) where
  closed := h.closed.optimize
  names := h.names
  fit := by
    have fused := Fusion.forall_mem_fusePairs scoped_of_fuses h.fit
    unfold Fusion.optimize Fusion.withEnd
    split
    · exact fused
    · exact List.forall_mem_append.mpr ⟨fused, List.forall_mem_singleton.mpr .nil⟩

theorem replace (h : Encodable symbols σ code) (texts : List (List UInt8)) :
    Encodable symbols σ (Prose.replace code texts) where
  closed := h.closed.replace texts
  names := h.names
  fit i mem := by
    rcases Prose.mem_replace mem with ⟨bytes, rfl⟩ | mem
    · trivial
    · exact h.fit i mem

/-- An encodable program fails to get into memory only for the windows, for room, or for what an
operand comes to. -/
theorem remains_of_generate {o : Options} {log : Log} {e : GenerateError}
    (h : Encodable symbols σ code) (hg : generate o symbols code = (log, .error e)) :
    e.RemainsOrOverflows := by
  rcases generate_eq_error hg with window | ⟨f, hf, rfl⟩ | ⟨p, hp, he⟩
  · exact .inl (.of_isWindow window)
  · exact .inl (.of_isSpace (h.closed.isSpace_of_plan hf))
  · obtain ⟨op, xs, mem, ⟨other, -⟩ | ⟨shape, x, hx, he⟩⟩ :=
      encodeBanks_eq_error_of_plan hp he
    · exact absurd (h.fit _ mem).length_eq other
    · have there := (List.of_mem_zip hx).2
      exact Context.remains_of_operand h.names (h.closed.label_mem_of_plan hp mem there)
        (h.closed.array_mem_of_plan hp mem there) (fits_of_mem_zip (h.fit _ mem) hx) he

end Encodable

end Gamebook.Memory
