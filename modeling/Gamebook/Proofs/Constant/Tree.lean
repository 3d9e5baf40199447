import Gamebook.Proofs.Constant.Stability

/-!
# Constant expressions as trees

A constant expression is kept as a list of items and computed with a stack. What it stands for is a
tree (`Tree`), of which the list is the postfix form (`Tree.expr`) and whose value is that of its
operator on the values of its operands, the left one computed first (`Tree.eval`).

Computing the list comes to the same as computing the tree, a value or an error (`Tree.leaves`).

For the way back, the items are run a second time, on a stack that holds trees instead of values
(`Tree.build`). This run takes the postfix form of a tree to that tree (`Tree.foldlM_build`), at any
point the trees on the stack spell the items that were read (`Tree.spelled_of_foldlM`), and it gets
as far as the run on values does (`Tree.exists_foldlM_build`). So `Expr.tree?` finds the tree of
every list that has a value, and no list has two.
-/

namespace Gamebook.Constant

/-- An operator that stands between two operands. -/
abbrev BinaryOperator := { op : Operator // op.arity = 2 }

/-- A constant expression by its parts. -/
inductive Tree where
  | value (v : Int64)
  | named (name : String)
  | binary (lhs : Tree) (op : BinaryOperator) (rhs : Tree)
  | complement (t : Tree)
deriving DecidableEq

theorem Operator.eq_not_of_arity {op : Operator} (h : op.arity ≠ 2) : op = .not := by
  revert h
  cases op <;> decide

theorem Operator.arity_eq_two {op : Operator} (h : op.arity ≠ 1) : op.arity = 2 := by
  revert h
  cases op <;> decide

namespace Tree

variable {lookup : String → Option Int64}

/-- The value of a tree: that of the left operand, then that of the right one, then that of the
operator on both. The first error is the error of the tree. -/
def eval (lookup : String → Option Int64) : Tree → Except EvalError Int64
  | value v => .ok v
  | named name =>
    match lookup name with
    | some v => .ok v
    | none => .error (.undefined name)
  | binary lhs op rhs => do
    let left ← lhs.eval lookup
    let right ← rhs.eval lookup
    op.val.apply left right
  | complement t => do return Constant.complement (← t.eval lookup)

/-- The postfix form of a tree. -/
def expr : Tree → Expr
  | value v => .value v
  | named name => .named name
  | binary lhs op rhs => lhs.expr.binary op rhs.expr
  | complement t => t.expr.unary .not

/-! ## From a tree to its value -/

/-- The items of a tree put the value of the tree on the stack, or fail as the tree does. -/
theorem leaves (t : Tree) : Expr.Leaves lookup t.expr.items (t.eval lookup) := by
  induction t with
  | value v => exact .value v
  | named name =>
    have found : Expr.Leaves lookup (named name).expr.items _ := .named name
    cases known : lookup name with
    | none => simpa only [eval, known, Option.elim_none] using found
    | some v => simpa only [eval, known, Option.elim_some] using found
  | binary lhs op rhs ihl ihr =>
    have arity : op.val.arity ≠ 1 := by rw [op.property]; decide
    exact ihl.binary ihr arity
  | complement t ih => exact ih.unary rfl

/-- A tree fails for an operator or for a name, never for the shape of its postfix form. -/
theorem eval_eq_error {t : Tree} {error : EvalError} (h : t.eval lookup = .error error) :
    error.isArithmetic = true ∨ ∃ name, error = .undefined name := by
  induction t with
  | value v => contradiction
  | named name =>
    cases known : lookup name with
    | none =>
      simp only [eval, known] at h
      exact .inr ⟨name, (Except.error.inj h).symm⟩
    | some v => simp [eval, known] at h
  | binary lhs op rhs ihl ihr =>
    rw [eval] at h
    cases left : lhs.eval lookup with
    | error _ => exact ihl (by rw [left] at h ⊢; exact h)
    | ok a =>
      cases right : rhs.eval lookup with
      | error _ => exact ihr (by rw [left, right] at h; rw [right]; exact h)
      | ok b =>
        rw [left, right] at h
        exact .inl (Operator.isArithmetic_of_apply h)
  | complement t ih =>
    rw [eval] at h
    cases inner : t.eval lookup with
    | error _ => exact ih (by rw [inner] at h ⊢; exact h)
    | ok a =>
      rw [inner] at h
      contradiction

/-! ## From a list of items to its tree -/

/-- What an item does to a stack of trees, whose top is the head of the list. -/
def build (stack : List Tree) : Item → Option (List Tree)
  | .value v => some (.value v :: stack)
  | .named name => some (.named name :: stack)
  | .apply op =>
    if binary : op.arity = 2 then
      match stack with
      | rhs :: lhs :: rest => some (.binary lhs ⟨op, binary⟩ rhs :: rest)
      | _ => none
    else
      match stack with
      | t :: rest => some (.complement t :: rest)
      | [] => none

theorem build_binary (lhs rhs : Tree) (op : BinaryOperator) (stack : List Tree) :
    build (rhs :: lhs :: stack) (.apply op) = some (.binary lhs op rhs :: stack) := by
  simp only [build, dif_pos op.property]

/-- The items of a tree put the tree on the stack, whatever is there already. -/
theorem foldlM_build (t : Tree) (stack : List Tree) :
    t.expr.items.foldlM build stack = some (t :: stack) := by
  induction t generalizing stack with
  | value v => rfl
  | named name => rfl
  | binary lhs op rhs ihl ihr =>
    rw [expr, Expr.binary, List.foldlM_append, List.foldlM_append, ihl stack]
    change rhs.expr.items.foldlM build (lhs :: stack) >>= _ = _
    rw [ihr (lhs :: stack)]
    change build (rhs :: lhs :: stack) (.apply op) >>= _ = _
    rw [build_binary]
    rfl
  | complement t ih =>
    rw [expr, Expr.unary, List.foldlM_append, ih stack]
    rfl

/-- The items that the trees on a stack spell, the lowest tree first. -/
def spelled : List Tree → List Item
  | [] => []
  | t :: rest => spelled rest ++ t.expr.items

theorem spelled_of_build {stack stack' : List Tree} {item : Item}
    (h : build stack item = some stack') : spelled stack' = spelled stack ++ [item] := by
  cases item with
  | value v =>
    obtain rfl := Option.some.inj h
    rfl
  | named name =>
    obtain rfl := Option.some.inj h
    rfl
  | apply op =>
    by_cases binary : op.arity = 2
    · simp only [build, dif_pos binary] at h
      rcases stack with _ | ⟨rhs, _ | ⟨lhs, rest⟩⟩
      · contradiction
      · contradiction
      · obtain rfl := Option.some.inj h
        simp only [spelled, expr, Expr.binary, List.append_assoc]
    · simp only [build, dif_neg binary] at h
      obtain rfl := Operator.eq_not_of_arity binary
      rcases stack with _ | ⟨t, rest⟩
      · contradiction
      · obtain rfl := Option.some.inj h
        simp only [spelled, expr, Expr.unary, List.append_assoc]

/-- Nothing of what was read is lost on the way. -/
theorem spelled_of_foldlM {items : List Item} {stack stack' : List Tree}
    (h : items.foldlM build stack = some stack') : spelled stack' = spelled stack ++ items := by
  induction items generalizing stack with
  | nil =>
    obtain rfl := Option.some.inj h
    rw [List.append_nil]
  | cons item items ih =>
    rw [List.foldlM_cons] at h
    obtain ⟨next, step, run⟩ := Option.bind_eq_some_iff.mp h
    rw [ih run, spelled_of_build step, List.append_assoc, List.singleton_append]

/-- An operator that finds operands among values finds as many among trees. -/
theorem exists_build_of_takes {op : Operator} {values rest : List Int64} {lhs rhs : Int64}
    {stack : List Tree} (takes : op.Takes values lhs rhs rest)
    (height : stack.length = values.length) :
    ∃ stack', build stack (.apply op) = some stack' ∧ stack'.length = rest.length + 1 := by
  cases takes with
  | unary _ _ arity =>
    have single : op.arity ≠ 2 := by rw [arity]; decide
    obtain ⟨t, below, rfl⟩ := List.exists_cons_of_length_eq_add_one height
    refine ⟨.complement t :: below, by simp only [build, dif_neg single], height⟩
  | binary _ _ _ arity =>
    obtain ⟨r, upper, rfl⟩ := List.exists_cons_of_length_eq_add_one height
    obtain ⟨l, below, rfl⟩ := List.exists_cons_of_length_eq_add_one (Nat.succ.inj height)
    exact ⟨_, build_binary l r ⟨op, Operator.arity_eq_two arity⟩ below, Nat.succ.inj height⟩

/-- Where there are enough values for an item, there are enough trees. -/
theorem exists_build {values values' : List Int64} {item : Item} {stack : List Tree}
    (h : Expr.step lookup values item = .ok values') (height : stack.length = values.length) :
    ∃ stack', build stack item = some stack' ∧ stack'.length = values'.length := by
  cases item with
  | value v =>
    obtain rfl := Except.ok.inj h
    exact ⟨_, rfl, congrArg (· + 1) height⟩
  | named name =>
    cases known : lookup name with
    | none => simp [Expr.step, known] at h
    | some v =>
      simp only [Expr.step, known] at h
      obtain rfl := Except.ok.inj h
      exact ⟨_, rfl, congrArg (· + 1) height⟩
  | apply op =>
    rcases Expr.takes_or_underflow lookup op values with ⟨lhs, rhs, rest, takes⟩ | underflow
    · rw [Expr.step_of_takes takes] at h
      cases applied : op.apply lhs rhs with
      | error error => simp [applied, Except.map] at h
      | ok v =>
        rw [applied] at h
        obtain rfl := Except.ok.inj h
        exact exists_build_of_takes takes height
    · rw [underflow] at h
      contradiction

/-- The run on trees gets as far as the run on values. -/
theorem exists_foldlM_build {items : List Item} {values values' : List Int64} {stack : List Tree}
    (h : items.foldlM (Expr.step lookup) values = .ok values')
    (height : stack.length = values.length) :
    ∃ stack', items.foldlM build stack = some stack' ∧ stack'.length = values'.length := by
  induction items generalizing values stack with
  | nil =>
    obtain rfl := Except.ok.inj h
    exact ⟨stack, rfl, height⟩
  | cons item items ih =>
    rw [List.foldlM_cons] at h
    cases first : Expr.step lookup values item with
    | error error =>
      rw [first] at h
      contradiction
    | ok between =>
      rw [first] at h
      obtain ⟨next, step, height⟩ := exists_build first height
      obtain ⟨stack', run, height⟩ := ih h height
      refine ⟨stack', ?_, height⟩
      rw [List.foldlM_cons, step]
      exact run

end Tree

/-- The tree of which the expression is the postfix form, if it is that of a tree. -/
def Expr.tree? (e : Expr) : Option Tree :=
  match e.items.foldlM Tree.build [] with
  | some [t] => some t
  | _ => none

theorem Expr.tree?_eq_some {e : Expr} {t : Tree} : e.tree? = some t ↔ t.expr = e := by
  constructor
  · intro h
    unfold tree? at h
    split at h
    · next t' run =>
      obtain rfl := Option.some.inj h
      have spelled := Tree.spelled_of_foldlM run
      simp only [Tree.spelled, List.nil_append] at spelled
      exact congrArg Expr.mk spelled
    · contradiction
  · rintro rfl
    rw [tree?, Tree.foldlM_build]

/-- An expression that has a value is the postfix form of a tree. -/
theorem Expr.exists_tree_of_eval {lookup : String → Option Int64} {e : Expr} {v : Int64}
    (h : e.eval lookup = .ok v) : ∃ t, e.tree? = some t := by
  have run := eval_eq_ok.mp h
  have empty : ([] : List Tree).length = ([] : List Int64).length := rfl
  obtain ⟨stack, built, height⟩ := Tree.exists_foldlM_build run empty
  obtain ⟨t, rfl⟩ := List.length_eq_one_iff.mp height
  exact ⟨t, by rw [tree?, built]⟩

/-- Computing the postfix form of a tree comes to what computing the tree comes to, the same value
or the same error, and it neither lacks a value nor leaves one over. Every list of items that has a
value is the postfix form of one tree only. -/
theorem expr_computes_tree (lookup : String → Option Int64) :
    (∀ t : Tree, t.expr.eval lookup = t.eval lookup ∧ t.expr.eval lookup ≠ .error .underflow ∧
      ∀ count, t.expr.eval lookup ≠ .error (.leftover count)) ∧
    ∀ (e : Expr) (v : Int64), e.eval lookup = .ok v → ∃! t : Tree, t.expr = e := by
  refine ⟨fun t => ?_, fun e v h => ?_⟩
  · have same : t.expr.eval lookup = t.eval lookup := t.leaves.eval_eq
    refine ⟨same, fun short => ?_, fun count long => ?_⟩
    · rcases Tree.eval_eq_error (same ▸ short) with arithmetic | ⟨name, undefined⟩
      all_goals contradiction
    · rcases Tree.eval_eq_error (same ▸ long) with arithmetic | ⟨name, undefined⟩
      all_goals contradiction
  · obtain ⟨t, found⟩ := e.exists_tree_of_eval h
    refine ⟨t, Expr.tree?_eq_some.mp found, fun t' spells => ?_⟩
    have found' := Expr.tree?_eq_some.mpr spells
    exact Option.some.inj (found'.symm.trans found)

/-- `~(base << 1) - 3`. -/
def maskedBase : Tree :=
  .binary (.complement (.binary (.named "base") ⟨.shiftLeft, rfl⟩ (.value 1))) ⟨.sub, rfl⟩
    (.value 3)

/-- The items of the expression are those of the tree and of no other. -/
theorem expr_computes_tree_maskedBase :
    maskedBase.expr.eval (fun _ => some 8) = .ok 236 ∧
      (maskedBase.expr.eval fun _ => none) = .error (.undefined "base") ∧
      ∃! t : Tree, t.expr = ⟨[.named "base", .value 1, .apply .shiftLeft, .apply .not, .value 3,
        .apply .sub]⟩ := by
  have known : maskedBase.eval (fun _ => some 8) = .ok 236 := by decide
  have unknown : (maskedBase.eval fun _ => none) = .error (.undefined "base") := by decide
  have computed := ((expr_computes_tree fun _ => some 8).1 maskedBase).1.trans known
  exact ⟨computed, ((expr_computes_tree fun _ => none).1 maskedBase).1.trans unknown,
    (expr_computes_tree fun _ => some 8).2 maskedBase.expr 236 computed⟩

end Gamebook.Constant
