import Gamebook.Constant.Arithmetic

/-!
# Constant expressions

A constant expression is kept in postfix form: values and names, each operator behind its
operands. It is computed with a stack of values (`Expr.eval`); names are looked up when they are
met, so an expression can be kept until all its names are declared.
-/

namespace Gamebook.Constant

/-- One item of a postfix expression. -/
inductive Item where
  | value (v : Int64)
  | named (name : String)
  | apply (op : Operator)
deriving DecidableEq

/-- The text of an item. -/
def Item.render : Item → String
  | value v => toString v.toInt
  | named name => name
  | apply op => op.sign

/-- A constant expression in postfix form. -/
structure Expr where
  items : List Item
deriving DecidableEq

namespace Expr

/-- A known value. -/
def value (v : Int64) : Expr := ⟨[.value v]⟩

/-- A constant's name. -/
def named (name : String) : Expr := ⟨[.named name]⟩

/-- Both operands and then the operator. -/
def binary (lhs : Expr) (op : Operator) (rhs : Expr) : Expr :=
  ⟨lhs.items ++ rhs.items ++ [.apply op]⟩

/-- The operand and then the operator. -/
def unary (e : Expr) (op : Operator) : Expr := ⟨e.items ++ [.apply op]⟩

/-- The value of an expression that is nothing else. -/
def literal? (e : Expr) : Option Int64 :=
  match e.items with
  | [.value v] => some v
  | _ => none

/-- The names in the expression, in order and as often as they stand there. -/
def names (e : Expr) : List String :=
  e.items.filterMap fun
    | .named name => some name
    | _ => none

/-- The items with blanks between them. -/
def render (e : Expr) : String := " ".intercalate (e.items.map Item.render)

/-- What an item does to the stack, whose top is the head of the list. -/
def step (lookup : String → Option Int64) (stack : List Int64) : Item →
    Except EvalError (List Int64)
  | .value v => .ok (v :: stack)
  | .named name =>
    match lookup name with
    | some v => .ok (v :: stack)
    | none => .error (.undefined name)
  | .apply op =>
    if op.arity = 1 then
      match stack with
      | v :: rest => (op.apply v v).map (· :: rest)
      | [] => .error .underflow
    else
      match stack with
      | rhs :: lhs :: rest => (op.apply lhs rhs).map (· :: rest)
      | _ => .error .underflow

/-- The one value that is left at the end. -/
def result : List Int64 → Except EvalError Int64
  | [v] => .ok v
  | [] => .error .underflow
  | stack => .error (.leftover stack.length)

/-- The value of the expression, with `lookup` for the names. -/
def eval (lookup : String → Option Int64) (e : Expr) : Except EvalError Int64 := do
  result (← e.items.foldlM (step lookup) [])

/-- The value of the expression, if it fits the width. -/
def evalAs (width : Width) (lookup : String → Option Int64) (e : Expr) :
    Except EvalError UInt16 := do
  width.check (← e.eval lookup)

end Expr

end Gamebook.Constant
