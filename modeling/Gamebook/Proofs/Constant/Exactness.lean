import Mathlib.Algebra.Group.Int.Defs
import Mathlib.Algebra.Group.Nat.Defs
import Gamebook.Grammar.Program
import Gamebook.Token.Scanner
import Gamebook.Proofs.Constant.Stability

/-!
# What operators do at the ends of a word

Sums, differences and products are those of integers, cut to what a word holds. Quotients and shifts
are exact, and so is the complement (`Operator.Computes`). A divisor that is zero and an amount that
no word is moved by are noticed before anything is computed. All that is left is one quotient, that
of the least word by minus one: it is no word, and nothing keeps an expression from coming to it
(`Operator.apply_eq_error`).

What is computed on the way is what the expression applies its operators to (`Expr.Applies`), and an
operator without a value is the end of everything (`Expr.eval_arithmetic_iff`). So computing an
expression ends with a value or an error unless it comes to that quotient (`Expr.eval_ends_iff`).
-/

namespace Gamebook.Constant

/-! ## Words as integers -/

/-- The integer nearest to `n` that is a word. -/
def clamp (n : Int) : Int := max (-2 ^ 63) (min n (2 ^ 63 - 1))

theorem toInt_saturate (n : Int) : (saturate n).toInt = clamp n := by
  have least : Int64.minValue.toInt = -2 ^ 63 := Int64.toInt_minValue
  have greatest : Int64.maxValue.toInt = 2 ^ 63 - 1 := Int64.toInt_maxValue
  unfold saturate clamp
  rw [least, greatest]
  split
  · rw [least]
    omega
  · split
    · rw [greatest]
      omega
    · rw [Int64.toInt_ofInt_of_le (by omega) (by omega)]
      omega

theorem toInt_complement (v : Int64) : (complement v).toInt = 255 - v.toInt % 256 := by
  have low : (complement v).toBitVec.toNat = (2 ^ 64 - 1 - v.toBitVec.toNat) % 256 := by
    rw [complement, Int64.toBitVec_and, BitVec.toNat_and, Int64.toBitVec_not, BitVec.toNat_not]
    exact Nat.and_two_pow_sub_one_eq_mod _ 8
  have word : v.toBitVec.toNat < 2 ^ 64 := v.toBitVec.isLt
  change (complement v).toBitVec.toInt = 255 - v.toBitVec.toInt % 256
  rw [BitVec.toInt_eq_toNat_cond, BitVec.toInt_eq_toNat_cond]
  split <;> split <;> omega

section Shift

variable {amount : Int64} {n : Nat} (h : amount.toInt = n) (small : n < 64)
include h small

/-- The shifts of words cut the amount to six bits, which leaves such an amount as it is. -/
theorem toNat_smod : (amount.toBitVec.smod 64).toNat = n := by
  have same : (amount.toBitVec.smod 64).toInt = n := by
    rw [BitVec.toInt_smod]
    change amount.toInt.fmod 64 = n
    rw [h, Int.fmod_eq_emod_of_nonneg _ (by decide)]
    omega
  rw [BitVec.toInt_eq_toNat_cond] at same
  split at same <;> omega

theorem toInt_shiftLeft (v : Int64) :
    (v <<< amount).toInt = (v.toInt * 2 ^ n).bmod (2 ^ 64) := by
  change (v <<< amount).toBitVec.toInt = (v.toBitVec.toInt * 2 ^ n).bmod (2 ^ 64)
  rw [Int64.toBitVec_shiftLeft, BitVec.shiftLeft_eq', toNat_smod h small, BitVec.toInt_shiftLeft,
    BitVec.toInt_eq_toNat_bmod, Int.bmod_mul_bmod, Nat.shiftLeft_eq]
  push_cast
  rfl

theorem toInt_shiftRight (v : Int64) : (v >>> amount).toInt = v.toInt / 2 ^ n := by
  change (v >>> amount).toBitVec.toInt = v.toBitVec.toInt / 2 ^ n
  rw [Int64.toBitVec_shiftRight, BitVec.toInt_sshiftRight', toNat_smod h small,
    Int.shiftRight_eq_div_pow]
  push_cast
  rfl

end Shift

/-! ## One operator -/

/-- The operator is defined on its operands, and `v` is its value there. -/
def Operator.Computes (op : Operator) (lhs rhs v : Int64) : Prop :=
  match op with
  | .add => v.toInt = clamp (lhs.toInt + rhs.toInt)
  | .sub => v.toInt = clamp (lhs.toInt - rhs.toInt)
  | .mul => v.toInt = clamp (lhs.toInt * rhs.toInt)
  | .div => rhs.toInt ≠ 0 ∧ v.toInt = lhs.toInt.tdiv rhs.toInt
  | .and => ∀ i, v.toBitVec.getLsbD i = (lhs.toBitVec.getLsbD i && rhs.toBitVec.getLsbD i)
  | .or => ∀ i, v.toBitVec.getLsbD i = (lhs.toBitVec.getLsbD i || rhs.toBitVec.getLsbD i)
  | .shiftLeft => ∃ n : Nat, n < 64 ∧ rhs.toInt = n ∧ v.toInt = (lhs.toInt * 2 ^ n).bmod (2 ^ 64)
  | .shiftRight => ∃ n : Nat, n < 64 ∧ rhs.toInt = n ∧ v.toInt = lhs.toInt / 2 ^ n
  | .not => v.toInt = 255 - rhs.toInt % 256

theorem isShift_iff {amount : Int64} :
    isShift amount = true ↔ 0 ≤ amount.toInt ∧ amount.toInt < 64 := by
  simp [isShift]

/-- Such an amount counts places. -/
theorem exists_places {amount : Int64} (h : isShift amount = true) :
    ∃ n : Nat, n < 64 ∧ amount.toInt = n := by
  obtain ⟨nonneg, small⟩ := isShift_iff.mp h
  exact ⟨amount.toInt.toNat, by omega, by omega⟩

namespace Operator

variable {op : Operator} {lhs rhs v : Int64} {error : EvalError}

theorem div_eq_ok : Operator.div.apply lhs rhs = .ok v ↔
    rhs ≠ 0 ∧ ¬ (lhs = .minValue ∧ rhs = -1) ∧ lhs / rhs = v := by
  unfold apply
  by_cases zero : rhs = 0
  · simp [zero]
  · by_cases least : lhs = .minValue ∧ rhs = -1
    · simp [least]
    · simp [zero, least]

/-- Unless the least word is divided by minus one, the quotient is a word. -/
theorem toInt_div (h : ¬ (lhs = .minValue ∧ rhs = -1)) :
    (lhs / rhs).toInt = lhs.toInt.tdiv rhs.toInt := by
  by_cases least : lhs = .minValue
  · exact Int64.toInt_div_of_ne_right lhs rhs fun negative => h ⟨least, negative⟩
  · exact Int64.toInt_div_of_ne_left lhs rhs least

theorem shiftLeft_eq_ok : Operator.shiftLeft.apply lhs rhs = .ok v ↔
    isShift rhs = true ∧ lhs <<< rhs = v := by
  unfold apply
  by_cases places : isShift rhs = true <;> simp [places]

theorem shiftRight_eq_ok : Operator.shiftRight.apply lhs rhs = .ok v ↔
    isShift rhs = true ∧ lhs >>> rhs = v := by
  unfold apply
  by_cases places : isShift rhs = true <;> simp [places]

/-- What an operator gives is its value. -/
theorem computes_of_apply (h : op.apply lhs rhs = .ok v) : op.Computes lhs rhs v := by
  cases op with
  | add | sub | mul =>
    obtain rfl := Except.ok.inj h
    exact toInt_saturate _
  | div =>
    obtain ⟨nonzero, word, rfl⟩ := div_eq_ok.mp h
    exact ⟨fun zero => nonzero (Int64.toInt_inj.mp zero), toInt_div word⟩
  | and =>
    obtain rfl := Except.ok.inj h
    exact fun i => by rw [Int64.toBitVec_and, BitVec.getLsbD_and]
  | or =>
    obtain rfl := Except.ok.inj h
    exact fun i => by rw [Int64.toBitVec_or, BitVec.getLsbD_or]
  | shiftLeft =>
    obtain ⟨places, rfl⟩ := shiftLeft_eq_ok.mp h
    obtain ⟨n, small, amount⟩ := exists_places places
    exact ⟨n, small, amount, toInt_shiftLeft amount small lhs⟩
  | shiftRight =>
    obtain ⟨places, rfl⟩ := shiftRight_eq_ok.mp h
    obtain ⟨n, small, amount⟩ := exists_places places
    exact ⟨n, small, amount, toInt_shiftRight amount small lhs⟩
  | not =>
    obtain rfl := Except.ok.inj h
    exact toInt_complement rhs

/-- When an operator has no value. -/
theorem apply_eq_error : op.apply lhs rhs = .error error ↔
    (op = .div ∧ lhs = .minValue ∧ rhs = -1 ∧ error = .quotientOverflow) ∨
    (op = .div ∧ rhs = 0 ∧ error = .divisionByZero) ∨
    ((op = .shiftLeft ∨ op = .shiftRight) ∧ ¬ (0 ≤ rhs.toInt ∧ rhs.toInt < 64) ∧
      error = .invalidShift rhs) := by
  cases op with
  | add | sub | mul | and | or | not => simp [apply]
  | div =>
    by_cases zero : rhs = 0
    · simp [apply, zero, eq_comm]
    · by_cases least : lhs = .minValue ∧ rhs = -1
      · simp [apply, least, eq_comm]
      · have word : Operator.div.apply lhs rhs = .ok (lhs / rhs) := div_eq_ok.mpr ⟨zero, least, rfl⟩
        have none : ¬ (lhs = .minValue ∧ rhs = -1 ∧ error = .quotientOverflow) :=
          fun ⟨minimal, negative, _⟩ => least ⟨minimal, negative⟩
        simp [word, zero, none]
  | shiftLeft | shiftRight =>
    rw [← isShift_iff]
    by_cases places : isShift rhs = true <;> simp [apply, places, eq_comm]

end Operator

/-! ## A whole expression -/

namespace Expr

variable {lookup : String → Option Int64} {e : Expr} {op : Operator} {lhs rhs : Int64}
  {error : EvalError}

/-- Computing the expression comes to an operator with these operands. -/
def Applies (lookup : String → Option Int64) (e : Expr) (op : Operator) (lhs rhs : Int64) : Prop :=
  ∃ before after stack rest, e.items = before ++ .apply op :: after ∧
    before.foldlM (step lookup) [] = .ok stack ∧ op.Takes stack lhs rhs rest

/-- If an operator has no value on the way, then the expression has none. -/
theorem eval_of_applies (h : e.Applies lookup op lhs rhs)
    (failed : op.apply lhs rhs = .error error) : e.eval lookup = .error error := by
  obtain ⟨before, after, stack, rest, items, run, takes⟩ := h
  rw [eval, items, List.foldlM_append, run]
  change (step lookup stack (.apply op) >>= _) >>= _ = _
  rw [step_of_takes takes, failed]
  rfl

/-- An expression has no value for its arithmetic exactly if an operator on the way has none. -/
theorem eval_arithmetic_iff (arithmetic : error.isArithmetic = true) :
    e.eval lookup = .error error ↔
      ∃ op lhs rhs, e.Applies lookup op lhs rhs ∧ op.apply lhs rhs = .error error := by
  constructor
  · intro h
    rcases eval_eq_error h with ⟨before, item, after, stack, items, run, failed⟩ | rfl | ⟨_, rfl⟩
    · rcases step_eq_error failed with
        ⟨_, -, -, rfl⟩ | rfl | ⟨op, lhs, rhs, rest, rfl, takes, fails⟩
      · contradiction
      · contradiction
      · exact ⟨op, lhs, rhs, ⟨before, after, stack, rest, items, run, takes⟩, fails⟩
    · contradiction
    · contradiction
  · rintro ⟨op, lhs, rhs, applies, failed⟩
    exact eval_of_applies applies failed

/-- An expression overflows exactly if it divides the least word by minus one. -/
theorem eval_eq_quotientOverflow :
    e.eval lookup = .error .quotientOverflow ↔ e.Applies lookup .div .minValue (-1) := by
  rw [eval_arithmetic_iff rfl]
  constructor
  · rintro ⟨op, lhs, rhs, applies, failed⟩
    rcases Operator.apply_eq_error.mp failed with ⟨rfl, rfl, rfl, -⟩ | ⟨-, -, other⟩ | ⟨-, -, other⟩
    · exact applies
    · contradiction
    · contradiction
  · intro applies
    exact ⟨.div, .minValue, -1, applies, Operator.apply_eq_error.mpr (.inl ⟨rfl, rfl, rfl, rfl⟩)⟩

/-- Computing an expression ends with a value or with an error that is told, unless it comes to the
quotient of the least word by minus one. Whatever else an operator is applied to on the way, it is
either defined there and has the value it should have, with nothing lost, or it is not computed at
all and the expression fails: for a divisor that is zero, or for an amount that is not between 0
and 63. -/
theorem eval_ends_iff (lookup : String → Option Int64) (e : Expr) :
    ((∃ v, e.eval lookup = .ok v) ∨
        (∃ error, error ≠ .quotientOverflow ∧ e.eval lookup = .error error) ↔
      ¬ e.Applies lookup .div .minValue (-1)) ∧
    ∀ op lhs rhs, e.Applies lookup op lhs rhs →
      (op = .div ∧ lhs = .minValue ∧ rhs = -1) ∨
      (op = .div ∧ rhs = 0 ∧ e.eval lookup = .error .divisionByZero) ∨
      ((op = .shiftLeft ∨ op = .shiftRight) ∧ ¬ (0 ≤ rhs.toInt ∧ rhs.toInt < 64) ∧
        e.eval lookup = .error (.invalidShift rhs)) ∨
      ∃ v, op.apply lhs rhs = .ok v ∧ op.Computes lhs rhs v := by
  refine ⟨?_, fun op lhs rhs applies => ?_⟩
  · rw [← eval_eq_quotientOverflow]
    cases e.eval lookup with
    | ok v => simp
    | error error => simp
  · cases applied : op.apply lhs rhs with
    | ok v => exact .inr (.inr (.inr ⟨v, rfl, Operator.computes_of_apply applied⟩))
    | error error =>
      have failed := eval_of_applies applies applied
      rcases Operator.apply_eq_error.mp applied with
        ⟨division, least, negative, -⟩ | ⟨division, zero, rfl⟩ | ⟨shift, outside, rfl⟩
      · exact .inl ⟨division, least, negative⟩
      · exact .inr (.inl ⟨division, zero, failed⟩)
      · exact .inr (.inr (.inl ⟨shift, outside, failed⟩))

/-- `(1 << 63) - 1`, which would be less than the least word. -/
def belowLeast : Expr := ((value 1).binary .shiftLeft (value 63)).binary .sub (value 1)

theorem eval_ends_iff_belowLeast :
    belowLeast.Applies (fun _ => none) .sub .minValue 1 ∧
      ∃ v, Operator.sub.apply .minValue 1 = .ok v ∧ v.toInt = clamp (Int64.minValue.toInt - 1) := by
  have applies : belowLeast.Applies (fun _ => none) .sub .minValue 1 :=
    ⟨[.value 1, .value 63, .apply .shiftLeft, .value 1], [], [1, .minValue], [], rfl, rfl,
      .binary .minValue 1 [] (by decide)⟩
  refine ⟨applies, ?_⟩
  rcases (eval_ends_iff _ _).2 _ _ _ applies with
    ⟨division, -⟩ | ⟨division, -⟩ | ⟨shift, -⟩ | ⟨v, applied, computes⟩
  · contradiction
  · contradiction
  · simp at shift
  · exact ⟨v, applied, computes⟩

/-- `(1 << 63) / (0 - 1)`, the least word divided by minus one. -/
def leastQuotient : Expr :=
  ((value 1).binary .shiftLeft (value 63)).binary .div ((value 0).binary .sub (value 1))

/-- A script can come to that quotient, and then there is neither a program nor a report. -/
theorem leastQuotient_overflows :
    leastQuotient.eval (fun _ => none) = .error .quotientOverflow ∧
      Grammar.read (Document.scan ⟨"script", "[[CONST N = (1<<63)/(0-1)]]", none⟩) = none :=
  ⟨by decide, Option.isNone_iff_eq_none.mp (by decide +kernel)⟩

end Expr

end Gamebook.Constant
