import Gamebook.Proofs.Bytecode.Scoped

/-!
# Computing constant expressions

A constant expression is computed with a stack, and one that was put together from values, names
and operators leaves exactly one value on it, whatever was there before (`leaves_of_scoped`). So its
value is that of its last operator on the values of its operands (`eval_binary`, `eval_unary`). It
never runs out of values and leaves none over; if its names have values, then only arithmetic itself
can fail (`isArithmetic_of_eval`).
-/

namespace Gamebook.Constant

/-- Whether an operator has no value on its operands. -/
def EvalError.isArithmetic : EvalError → Bool
  | .divisionByZero | .invalidShift _ | .quotientOverflow => true
  | _ => false

/-- Computing the value of an operator fails only for its operands. -/
theorem Operator.isArithmetic_of_apply {op : Operator} {lhs rhs : Int64} {error : EvalError}
    (h : op.apply lhs rhs = .error error) : error.isArithmetic = true := by
  unfold apply at h
  split at h
  all_goals (try contradiction)
  · split at h
    · exact Except.error.inj h ▸ rfl
    · split at h
      · exact Except.error.inj h ▸ rfl
      · contradiction
  all_goals
    split at h
    · contradiction
    · exact Except.error.inj h ▸ rfl

/-- The operator finds these operands on the stack, and under them the rest. -/
inductive Operator.Takes (op : Operator) : List Int64 → Int64 → Int64 → List Int64 → Prop
  | unary (v : Int64) (rest : List Int64) : op.arity = 1 → Takes op (v :: rest) v v rest
  | binary (lhs rhs : Int64) (rest : List Int64) :
    op.arity ≠ 1 → Takes op (rhs :: lhs :: rest) lhs rhs rest

namespace Expr

variable {σ : Scope} {lookup : String → Option Int64} {e lhs rhs : Expr} {op : Operator}

/-- An operator puts its value in the place of its operands. -/
theorem step_of_takes {stack rest : List Int64} {lhs rhs : Int64}
    (h : op.Takes stack lhs rhs rest) :
    step lookup stack (.apply op) = (op.apply lhs rhs).map (· :: rest) := by
  cases h with
  | unary _ _ arity => simp only [step, if_pos arity]
  | binary _ _ _ arity => simp only [step, if_neg arity]

/-- If an operator does not find its operands, nothing else can be wrong. -/
theorem takes_or_underflow (lookup : String → Option Int64) (op : Operator) (stack : List Int64) :
    (∃ lhs rhs rest, op.Takes stack lhs rhs rest) ∨
      step lookup stack (.apply op) = .error .underflow := by
  by_cases arity : op.arity = 1
  · rcases stack with _ | ⟨v, rest⟩
    · exact .inr (by simp only [step, if_pos arity])
    · exact .inl ⟨v, v, rest, .unary v rest arity⟩
  · rcases stack with _ | ⟨rhs, _ | ⟨lhs, rest⟩⟩
    · exact .inr (by simp only [step, if_neg arity])
    · exact .inr (by simp only [step, if_neg arity])
    · exact .inl ⟨lhs, rhs, rest, .binary lhs rhs rest arity⟩

/-- An item fails for a name without a value, for want of operands, or for its operands. -/
theorem step_eq_error {stack : List Int64} {item : Item} {error : EvalError}
    (h : step lookup stack item = .error error) :
    (∃ name, item = .named name ∧ lookup name = none ∧ error = .undefined name) ∨
      error = .underflow ∨
      ∃ op lhs rhs rest, item = .apply op ∧ op.Takes stack lhs rhs rest ∧
        op.apply lhs rhs = .error error := by
  cases item with
  | value v => contradiction
  | named name =>
    cases found : lookup name with
    | some v => simp [step, found] at h
    | none =>
      simp only [step, found] at h
      exact .inl ⟨name, rfl, found, (Except.error.inj h).symm⟩
  | apply op =>
    rcases takes_or_underflow lookup op stack with ⟨lhs, rhs, rest, takes⟩ | underflow
    · rw [step_of_takes takes] at h
      cases applied : op.apply lhs rhs with
      | ok v => simp [applied, Except.map] at h
      | error error' =>
        rw [applied] at h
        obtain rfl := Except.error.inj h
        exact .inr (.inr ⟨op, lhs, rhs, rest, rfl, takes, applied⟩)
    · rw [underflow] at h
      exact .inr (.inl (Except.error.inj h).symm)

/-- A run that fails does so at an item. -/
theorem exists_step_of_foldlM {items : List Item} {stack : List Int64} {error : EvalError}
    (h : items.foldlM (step lookup) stack = .error error) :
    ∃ before item after stack', items = before ++ item :: after ∧
      before.foldlM (step lookup) stack = .ok stack' ∧ step lookup stack' item = .error error := by
  induction items generalizing stack with
  | nil => contradiction
  | cons item items ih =>
    rw [List.foldlM_cons] at h
    cases first : step lookup stack item with
    | error error' =>
      rw [first] at h
      cases h
      exact ⟨[], item, items, stack, rfl, rfl, first⟩
    | ok next =>
      rw [first] at h
      obtain ⟨before, item', after, stack', rfl, run, failed⟩ := ih h
      refine ⟨item :: before, item', after, stack', rfl, ?_, failed⟩
      rw [List.foldlM_cons, first]
      exact run

/-- At the end, only the number of values can be wrong. -/
theorem result_eq_error {stack : List Int64} {error : EvalError} (h : result stack = .error error) :
    error = .underflow ∨ ∃ count, error = .leftover count := by
  rcases stack with _ | ⟨v, _ | ⟨w, rest⟩⟩
  · exact .inl (Except.error.inj h).symm
  · contradiction
  · exact .inr ⟨_, (Except.error.inj h).symm⟩

/-- Computing an expression fails at one of its items, or in the end for the number of values. -/
theorem eval_eq_error {error : EvalError} (h : e.eval lookup = .error error) :
    (∃ before item after stack, e.items = before ++ item :: after ∧
      before.foldlM (step lookup) [] = .ok stack ∧ step lookup stack item = .error error) ∨
      error = .underflow ∨ ∃ count, error = .leftover count := by
  unfold eval at h
  cases run : e.items.foldlM (step lookup) [] with
  | error error' =>
    rw [run] at h
    obtain rfl := Except.error.inj h
    exact .inl (exists_step_of_foldlM run)
  | ok stack =>
    rw [run] at h
    exact .inr (result_eq_error h)

/-- The items put a value on the stack, or fail, whatever is there already. -/
def Leaves (lookup : String → Option Int64) (items : List Item) (x : Except EvalError Int64) :
    Prop :=
  ∀ stack, items.foldlM (step lookup) stack = x.map (· :: stack)

namespace Leaves

variable {xs ys : List Item} {x y : Except EvalError Int64}

theorem eval_eq (h : Leaves lookup xs x) : eval lookup ⟨xs⟩ = x := by
  rw [eval, h []]
  cases x <;> rfl

theorem value (v : Int64) : Leaves lookup [.value v] (.ok v) := fun _ => rfl

theorem named (name : String) :
    Leaves lookup [.named name] ((lookup name).elim (.error (.undefined name)) .ok) := by
  intro stack
  simp only [List.foldlM_cons, List.foldlM_nil, step]
  cases lookup name <;> rfl

/-- The second operand is computed on top of the first. -/
theorem binary (hx : Leaves lookup xs x) (hy : Leaves lookup ys y) (arity : op.arity ≠ 1) :
    Leaves lookup (xs ++ ys ++ [.apply op]) (do op.apply (← x) (← y)) := by
  intro stack
  rw [List.foldlM_append, List.foldlM_append, hx stack]
  cases x with
  | error error => rfl
  | ok a =>
    change ys.foldlM (step lookup) (a :: stack) >>= _ = _
    rw [hy (a :: stack)]
    cases y with
    | error error => rfl
    | ok b =>
      change (step lookup (b :: a :: stack) (.apply op) >>= _) = _
      rw [step_of_takes (.binary a b stack arity)]
      exact bind_pure _

theorem unary (hx : Leaves lookup xs x) (arity : op.arity = 1) :
    Leaves lookup (xs ++ [.apply op]) (do let v ← x; op.apply v v) := by
  intro stack
  rw [List.foldlM_append, hx stack]
  cases x with
  | error error => rfl
  | ok a =>
    change (step lookup (a :: stack) (.apply op) >>= _) = _
    rw [step_of_takes (.unary a stack arity)]
    exact bind_pure _

end Leaves

/-- An expression that was put together properly puts its value on the stack. -/
theorem leaves_of_scoped (h : e.Scoped σ) : Leaves lookup e.items (e.eval lookup) := by
  suffices ∃ x, Leaves lookup e.items x by
    obtain ⟨x, hx⟩ := this
    have : e.eval lookup = x := hx.eval_eq
    rwa [this]
  induction h with
  | value v => exact ⟨_, .value v⟩
  | named _ => exact ⟨_, .named _⟩
  | binary _ arity _ ihl ihr =>
    obtain ⟨x, hx⟩ := ihl
    obtain ⟨y, hy⟩ := ihr
    exact ⟨_, hx.binary hy arity⟩
  | unary _ arity ih =>
    obtain ⟨x, hx⟩ := ih
    exact ⟨_, hx.unary arity⟩

theorem eval_named (name : String) :
    (named name).eval lookup = (lookup name).elim (.error (.undefined name)) .ok :=
  (Leaves.named name).eval_eq

theorem eval_binary (hl : lhs.Scoped σ) (hr : rhs.Scoped σ) (arity : op.arity ≠ 1) :
    (lhs.binary op rhs).eval lookup = (do op.apply (← lhs.eval lookup) (← rhs.eval lookup)) :=
  ((leaves_of_scoped hl).binary (leaves_of_scoped hr) arity).eval_eq

theorem eval_unary (h : e.Scoped σ) (arity : op.arity = 1) :
    (e.unary op).eval lookup = (do let v ← e.eval lookup; op.apply v v) :=
  ((leaves_of_scoped h).unary arity).eval_eq

/-- If all names have values, computing an expression fails only for an operator. -/
theorem isArithmetic_of_eval {error : EvalError} (h : e.Scoped σ)
    (known : ∀ name, σ .constant name → ∃ v, lookup name = some v)
    (failed : e.eval lookup = .error error) : error.isArithmetic = true := by
  induction h with
  | value v => contradiction
  | named there =>
    obtain ⟨v, hv⟩ := known _ there
    rw [eval_named, hv] at failed
    contradiction
  | @binary lhs rhs op hl arity hr ihl ihr =>
    rw [eval_binary hl hr arity] at failed
    cases hx : lhs.eval lookup with
    | error _ => exact ihl (by rw [hx] at failed ⊢; exact failed)
    | ok a =>
      cases hy : rhs.eval lookup with
      | error _ => exact ihr (by rw [hx, hy] at failed; rw [hy]; exact failed)
      | ok b =>
        rw [hx, hy] at failed
        exact Operator.isArithmetic_of_apply failed
  | @unary e op he arity ih =>
    rw [eval_unary he arity] at failed
    cases hx : e.eval lookup with
    | error _ => exact ih (by rw [hx] at failed ⊢; exact failed)
    | ok a =>
      rw [hx] at failed
      exact Operator.isArithmetic_of_apply failed

end Expr

end Gamebook.Constant
