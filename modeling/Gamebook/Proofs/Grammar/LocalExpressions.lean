import Gamebook.Proofs.Grammar.Levels
import Gamebook.Proofs.Grammar.Locality

/-!
# Expressions do not depend on what is around them

Values are put together from the names that are known, and tokens are not looked at. Operators are
no separators. Every level of depth and every operator costs a token, so how deep to go and how
often to go on may be bounded by any number that is not below the number of tokens
(`Parser.chainFrom_local`, `Parser.primary_local`).
-/

namespace Gamebook.Grammar

open Constant (Expr Width Operator)

theorem isSeparator_of_infixLevel? {t : Token} {level : Level} (h : infixLevel? t = some level) :
    isSeparator t = false := by
  cases t <;> first | rfl | contradiction

theorem isSeparator_of_comparison? {t : Token} {opcode : Opcode} (h : comparison? t = some opcode) :
    isSeparator t = false := by
  cases t <;> first | rfl | contradiction

namespace Parser

variable {k : Nat}

/-! ## Values -/

theorem evaluate_local (e : Expr) : Local k (evaluate e) (evaluate e) := by
  intro s _ _
  have either : (∀ s' : State, s'.symbols = s.symbols → evaluate e s' = .overflowed) ∨
      ∃ result, ∀ s' : State, s'.symbols = s.symbols → evaluate e s' = .done result s' := by
    unfold evaluate
    by_cases overflow : e.eval s.symbols.value? = .error .quotientOverflow
    · exact .inl fun s' same => by rw [same, overflow]
    · refine .inr ⟨e.eval s.symbols.value?, fun s' same => ?_⟩
      rw [same]
      split
      · contradiction
      · rfl
  unfold LocalAt
  rcases either with run | ⟨result, run⟩
  · rw [run s rfl]
    exact ⟨nofun, fun f _ _ => run (f.within s) rfl⟩
  · rw [run s rfl]
    exact ⟨fun s' h => Option.some.inj h ▸ .refl s, fun f _ _ => run (f.within s) rfl⟩

theorem check_local (width : Width) (value : Int64) (place : Location) :
    Local k (check width value place) (check width value place) := by
  unfold check
  split
  · exact .pure _
  · exact (report_local _ _).bind fun _ => .pure _

theorem immediate_local (e : Located Expr) (width : Width) :
    Local k (immediate e width) (immediate e width) := by
  refine (evaluate_local e.value).bind fun result => ?_
  split
  · exact (check_local _ _ _).bind fun _ => .pure _
  · exact .pure _
  · exact (report_local _ _).bind fun _ => .pure _

theorem known_local (e : Located Expr) : Local k (known e) (known e) := by
  refine (evaluate_local e.value).bind fun result => ?_
  split
  · exact .pure _
  · exact .fail _ _
  · exact .fail _ _

theorem foldNow_local (e : Located Expr) (width : Width) :
    Local k (foldNow e width) (foldNow e width) := by
  refine (known_local e).bind fun value => ?_
  split
  · exact .pure _
  · exact (report_local _ _).bind fun _ => .pure _

theorem push_local (v : Located Value) : Local k (push v) (push v) := by
  unfold push
  split
  · exact .pure _
  · exact (immediate_local _ _).bind fun _ => .pure _

theorem pushAll_local (vs : List (Located Value)) : Local k (pushAll vs) (pushAll vs) := by
  induction vs with
  | nil => exact .pure _
  | cons v vs ih => exact (push_local v).bind fun _ => ih.bind fun _ => .pure _

theorem foldAll_local (vs : List (Located Value)) : Local k (foldAll vs) (foldAll vs) := by
  induction vs with
  | nil => exact .pure _
  | cons v vs ih =>
    unfold foldAll
    split
    · exact .pure _
    · refine (evaluate_local _).bind fun value => ?_
      cases value with
      | error e => exact .pure _
      | ok value => exact ih.bind fun _ => .pure _

theorem checkBytes_local (vs : List (Located Int64)) :
    Local k (checkBytes vs) (checkBytes vs) := by
  induction vs with
  | nil => exact .pure _
  | cons v vs ih => exact (check_local _ _ _).bind fun _ => ih.bind fun _ => .pure _

theorem foldBytes_local (vs : List (Located Value)) : Local k (foldBytes vs) (foldBytes vs) := by
  refine (foldAll_local vs).bind fun r => ?_
  cases r with
  | none => exact .pure _
  | some values => exact (checkBytes_local values).bind fun _ => .pure _

theorem runtimeBinary_local (op : Opcode) (lhs rhs : Located Value) :
    Local k (runtimeBinary op lhs rhs) (runtimeBinary op lhs rhs) :=
  (push_local lhs).bind fun _ => (push_local rhs).bind fun _ => .pure _

theorem arithmetic_local (op : Operator) (lhs rhs : Located Value) :
    Local k (arithmetic op lhs rhs) (arithmetic op lhs rhs) := by
  unfold arithmetic
  dsimp only
  split
  · exact .pure _
  · split
    · exact runtimeBinary_local _ _ _
    · exact .fail _ _

theorem negate_local (v : Located Value) : Local k (negate v) (negate v) :=
  (push_local v).bind fun _ => .pure _

theorem complement_local (v : Located Value) : Local k (complement v) (complement v) := by
  unfold complement
  split <;> exact .pure _

/-- An operator joins on the stack, or it is one on constants as well. -/
theorem join_of_operators {level : Level} {t : Token} {join : Join} (h : level.operators t = some join) :
    (∃ op, join = runtimeBinary op) ∨ ∃ op, join = arithmetic op := by
  cases level <;>
    simp only [Level.operators, orLevel, andLevel, bitOrLevel, bitAndLevel, shiftLevel, sumLevel,
      productLevel] at h <;>
    first
      | contradiction
      | (split at h <;> first
        | contradiction
        | exact .inl ⟨_, (Option.some.inj h).symm⟩
        | exact .inr ⟨_, (Option.some.inj h).symm⟩)

theorem join_local {level : Level} {t : Token} {join : Join} (h : level.operators t = some join)
    (lhs rhs : Located Value) : Local k (join lhs rhs) (join lhs rhs) := by
  obtain ⟨op, rfl⟩ | ⟨op, rfl⟩ := join_of_operators h
  · exact runtimeBinary_local op lhs rhs
  · exact arithmetic_local op lhs rhs

/-! ## Operators -/

section Operand

variable {operand operand' : Parser (Located Value)}

theorem chainFrom_local (level : Level) {n m : Nat} (h : Local n operand operand') (le : n ≤ m)
    (lhs : Located Value) :
    Local n (chainFrom operand level.operators n lhs)
      (chainFrom operand' level.operators m lhs) := by
  induction n generalizing m lhs with
  | zero =>
    refine Local.of_nil (.pure lhs) fun s nil => ?_
    exact chainFrom_stop (.inl nil) m lhs
  | succ n ih =>
    obtain ⟨m, rfl⟩ : ∃ m', m = m' + 1 := ⟨m - 1, by omega⟩
    refine .peek (.pure lhs) fun s t place rest clean few pending => ?_
    cases found : level.operators t with
    | none =>
      simp only [Option.bind_some, found]
      exact Local.pure lhs s clean few
    | some join =>
      simp only [Option.bind_some, found]
      have inside := isSeparator_of_infixLevel? (Level.infixLevel?_of_operators found)
      rw [pending] at few
      have after : Local n
          (operand >>= fun rhs => join lhs rhs >>= chainFrom operand level.operators n)
          (operand' >>= fun rhs => join lhs rhs >>= chainFrom operand' level.operators m) :=
        (h.mono (Nat.le_succ n)).bind fun rhs => (join_local found lhs rhs).bind fun joined =>
          ih (h.mono (Nat.le_succ n)) (Nat.le_of_succ_le_succ le) joined
      exact .advance pending inside
        (after _ (clean_behind pending clean) (Nat.le_of_succ_le_succ few))

theorem chain_local (level : Level) (h : Local k operand operand') :
    Local k (chain operand level.operators) (chain operand' level.operators) :=
  h.bind fun first => .left fun _ _ few le => chainFrom_local level (h.mono few) le first

theorem prefixed_local {t : Token} (inside : isSeparator t = false)
    {wrap : Located Value → Parser Value} (hwrap : ∀ n v, Local n (wrap v) (wrap v)) {n m : Nat}
    (h : Local n operand operand') (le : n ≤ m) :
    Local n (prefixed t wrap operand n) (prefixed t wrap operand' m) := by
  induction n generalizing m with
  | zero =>
    refine Local.of_nil h fun s nil => ?_
    cases m with
    | zero => rfl
    | succ m =>
      rw [prefixed, accept, bind_assoc, bind_of_done (peek_nil nil)]
      rfl
  | succ n ih =>
    obtain ⟨m, rfl⟩ : ∃ m', m = m' + 1 := ⟨m - 1, by omega⟩
    refine .accept inside (fun n' lt => ?_) h
    have fewer := ih (h.mono (Nat.le_succ n)) (Nat.le_of_succ_le_succ le)
    refine lastSeen_local.bind fun start => (fewer.mono (by omega)).bind fun inner => ?_
    exact (hwrap _ _).bind fun _ => .pure _

theorem arithmeticOver_local (h : Local k operand operand') :
    Local k (arithmeticOver operand) (arithmeticOver operand') := by
  refine chain_local .bitOr (chain_local .bitAnd (chain_local .shift (chain_local .sum
    (chain_local .product ?_))))
  exact .left fun _ _ few le => prefixed_local rfl (fun _ => complement_local) (h.mono few) le

theorem comparisonOver_local (h : Local k operand operand') :
    Local k (comparisonOver operand) (comparisonOver operand') := by
  refine (arithmeticOver_local h).bind fun lhs => ?_
  refine .peek (.pure lhs) fun s t place rest clean few pending => ?_
  cases found : comparison? t with
  | none =>
    simp only [Option.bind_some, found]
    exact Local.pure lhs s clean few
  | some opcode =>
    simp only [Option.bind_some, found]
    have after : Local k (arithmeticOver operand >>= runtimeBinary opcode lhs)
        (arithmeticOver operand' >>= runtimeBinary opcode lhs) :=
      (arithmeticOver_local h).bind fun rhs => runtimeBinary_local opcode lhs rhs
    rw [pending] at few
    exact .advance pending (isSeparator_of_comparison? found)
      (after _ (clean_behind pending clean) (Nat.le_of_succ_le few))

theorem expressionOver_local (h : Local k operand operand') :
    Local k (expressionOver operand) (expressionOver operand') := by
  refine chain_local .or (chain_local .and ?_)
  exact .left fun _ _ few le =>
    prefixed_local rfl (fun _ => negate_local) (comparisonOver_local (h.mono few)) le

theorem constantOver_local (h : Local k operand operand') :
    Local k (constantOver operand) (constantOver operand') := by
  refine (arithmeticOver_local h).bind fun v => ?_
  split
  · exact .pure _
  · exact .fail _ _

/-! ## What operators stand between -/

theorem indexOver_local (h : Local k operand operand') :
    Local k (indexOver operand) (indexOver operand') :=
  (expect_local rfl _).bind fun _ => (constantOver_local h).bind fun _ =>
    (expect_local rfl _).bind fun _ => .pure _

theorem variableFrom_local (t : Located Token) : Local k (variableFrom t) (variableFrom t) := by
  unfold variableFrom
  split
  · split
    · exact .pure _
    · exact .fail _ _
  · exact (mention_local _ _).bind fun _ => .pure _
  · exact .fail _ _

theorem variableOver_local (h : Local k operand operand') :
    Local k (variableOver operand) (variableOver operand') := by
  refine (next_local _).bind fun t => (variableFrom_local t).bind fun v => ?_
  refine peek_local.bind fun next => ?_
  split
  · refine (indexOver_local h).bind fun displacement => lastSeen_local.bind fun place => ?_
    refine (foldNow_local _ _).bind fun n => ?_
    split <;> exact .pure _
  · exact .pure _

theorem fieldValue_local (name : String) (greatest : UInt16) (e : Located Expr) :
    Local k (fieldValue name greatest e) (fieldValue name greatest e) := by
  refine (foldNow_local e _).bind fun v => ?_
  split
  · exact .pure _
  · split
    · exact .pure _
    · exact (report_local _ _).bind fun _ => .pure _

theorem fieldsOver_local (h : Local k operand operand') (fields : List (String × UInt16)) :
    Local k (fieldsOver operand fields) (fieldsOver operand' fields) := by
  induction fields with
  | nil => exact .pure _
  | cons field fields ih =>
    refine (constantOver_local h).bind fun e => (fieldValue_local _ _ e).bind fun value => ?_
    split
    · exact .pure _
    · exact comma_local.bind fun _ => ih.bind fun _ => .pure _

theorem attributeOver_local (h : Local k operand operand') (mask : Bool) :
    Local k (attributeOver operand mask) (attributeOver operand' mask) :=
  openParen_local.bind fun _ => (fieldsOver_local h _).bind fun _ => closeParen_local.bind fun _ =>
    .pure _

theorem randomBetween_local (first second : Located Expr) (place : Location) :
    Local k (randomBetween first second place) (randomBetween first second place) := by
  refine (foldNow_local first _).bind fun low? => (foldNow_local second _).bind fun high? => ?_
  split
  · split
    · exact .pure _
    · exact .fail _ _
  · exact .pure _

theorem randomOver_local (h : Local k operand operand') :
    Local k (randomOver operand) (randomOver operand') := by
  refine openParen_local.bind fun _ => .accept rfl (fun _ _ => .pure _) ?_
  refine (constantOver_local h).bind fun first => .accept rfl (fun n lt => ?_) ?_
  · exact (constantOver_local (h.mono (Nat.le_of_lt lt))).bind fun second =>
      closeParen_local.bind fun _ => lastSeen_local.bind fun _ => randomBetween_local _ _ _
  · exact closeParen_local.bind fun _ => (immediate_local _ _).bind fun _ => .pure _

theorem timeoutOver_local (h : Local k operand operand') :
    Local k (timeoutOver operand) (timeoutOver operand') := by
  refine peek_local.bind fun t => ?_
  split
  · exact .pure _
  · exact (constantOver_local h).bind fun e => immediate_local e _

theorem primaryFrom_local (h : Local k operand operand') (t : Located Token) :
    Local k (primaryFrom operand t) (primaryFrom operand' t) := by
  unfold primaryFrom
  split
  · exact .pure _
  · refine peek_local.bind fun next => ?_
    split
    · exact (mention_local _ _).bind fun _ => (indexOver_local h).bind fun _ => .pure _
    · exact (mention_local _ _).bind fun _ => .pure _
  · have found (op : Opcode) :
        Local k (variableOver operand >>= fun v => pure (Value.runtime [.code op [.variable v]]))
          (variableOver operand' >>= fun v => pure (Value.runtime [.code op [.variable v]])) :=
      (variableOver_local h).bind fun _ => .pure _
    refine .peek (found .PUSH_I) fun s t place rest clean few pending => ?_
    have clean' := clean_behind pending clean
    have few' : rest.length ≤ k := by
      rw [pending] at few
      exact Nat.le_of_succ_le few
    cases t with
    | indirection => exact .advance pending rfl (found .PUSH_D _ clean' few')
    | openParen =>
      have inner := (expressionOver_local h).bind fun inner => closeParen_local.bind fun _ =>
        (push_local inner).bind fun code => Local.pure (Value.runtime (code ++ [.op .POP_PUSH_I]))
      exact .advance pending rfl (inner _ clean' few')
    | _ => exact found .PUSH_I s clean few
  · exact (expressionOver_local h).bind fun inner => closeParen_local.bind fun _ => .pure _
  · exact randomOver_local h
  · exact openParen_local.bind fun _ => (timeoutOver_local h).bind fun timeout =>
      closeParen_local.bind fun _ => .pure _
  · exact attributeOver_local h false
  · exact attributeOver_local h true
  · split
    · exact openParen_local.bind fun _ => closeParen_local.bind fun _ => .pure _
    · exact openParen_local.bind fun _ => (expressionOver_local h).bind fun lhs =>
        comma_local.bind fun _ => (expressionOver_local h).bind fun rhs =>
        closeParen_local.bind fun _ => (push_local lhs).bind fun _ => (push_local rhs).bind fun _ =>
        .pure _
    · exact .fail _ _
  · exact .fail _ _

end Operand

/-- More depth than there are tokens changes nothing. -/
theorem primary_local {n m : Nat} (lt : k < n) (lt' : k < m) :
    Local k (primary n) (primary m) := by
  induction n generalizing k m with
  | zero => exact absurd lt (Nat.not_lt_zero k)
  | succ n ih =>
    obtain ⟨m, rfl⟩ : ∃ m', m = m' + 1 := ⟨m - 1, by omega⟩
    refine (next_local _).bind_strict (next_strict _) fun t k' fewer => ?_
    refine (primaryFrom_local (ih (by omega) (by omega)) t).bind fun v => ?_
    exact lastSeen_local.bind fun _ => .pure _

/-! ## Whole expressions -/

theorem nested_local {α : Type} {p : Parser (Located Value) → Parser α}
    (h : ∀ {k operand operand'}, Local k operand operand' → Local k (p operand) (p operand')) :
    Local k (nested p) (nested p) :=
  .left fun _ _ _ le => h (primary_local (Nat.lt_succ_self _) (Nat.lt_succ_of_le le))

theorem expression_local : Local k expression expression := nested_local expressionOver_local

theorem constant_local : Local k constant constant := nested_local constantOver_local

theorem variableReference_local : Local k variableReference variableReference :=
  nested_local variableOver_local

theorem index_local : Local k index index := nested_local indexOver_local

end Parser

end Gamebook.Grammar
