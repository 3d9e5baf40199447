import Gamebook.Proofs.Grammar.Folding
import Gamebook.Proofs.Grammar.Spelling

/-!
# Expressions of accepted scripts

Tokens that spell a tree are read as that tree if there is code for the tree (`opens_of_written`).
Where nothing is wrong in the end there was code for all trees that were read, so nothing has to be
known of a tree but that it was read (`Parser.means_of_written`).

Again this is shown of a point where a chain may go on (`Parser.Needs`): what is read behind an
operator is read in the same run as what stands in front of it.
-/

namespace Gamebook.Grammar

open Constant (Expr Width Operator)

namespace Parser

variable {T : Accepted} {s s' : State} {t a b : Tree}

/-! ## Values that are accepted -/

/-- Making an operand changes nothing where nothing is wrong in the end. Then the constant is known
and fits, or is not known yet. -/
theorem immediate_accepted {e : Located Expr} {width : Width} {x : Operand}
    (run : immediate e width s = .done x s') (final : s'.Grows T.state) :
    s' = s ∧ ((∃ v, e.value.eval s.symbols.value? = .ok v ∧ width.Holds v) ∨
      ∃ name, e.value.eval s.symbols.value? = .error (.undefined name)) := by
  cases h : e.value.eval s.symbols.value? with
  | ok v =>
    by_cases fits : width.Holds v
    · rw [immediate_of_holds h fits] at run
      cases run
      exact ⟨rfl, .inl ⟨v, rfl, fits⟩⟩
    · rw [immediate, bind_of_done (evaluate_apply (by simp [h])), h] at run
      change (check width v e.place >>= _) s = _ at run
      rw [check, Constant.Width.check_eq, if_neg fits] at run
      cases run
      exact absurd final (Accepted.not_grows (List.mem_append_right _ List.mem_cons_self) (by simp))
  | error error =>
    by_cases overflow : error = .quotientOverflow
    · subst overflow
      simp [immediate, bind_apply, evaluate, h] at run
    · rw [immediate, bind_of_done (evaluate_apply (by simpa [h] using overflow)), h] at run
      cases error with
      | undefined name =>
        cases run
        exact ⟨rfl, .inr ⟨name, rfl⟩⟩
      | _ =>
        cases run
        exact absurd final
          (Accepted.not_grows (List.mem_append_right _ List.mem_cons_self) (by simp))

/-- Pushing a value changes nothing. -/
theorem push_still {v : Located Value} {code : List Instruction}
    (run : push v s = .done code s') (final : s'.Grows T.state) : s' = s := by
  obtain ⟨value, place⟩ := v
  cases value with
  | runtime code' =>
    cases run
    rfl
  | constant e =>
    obtain ⟨x, s₁, operand, pushed⟩ := bind_eq_done.mp run
    cases pushed
    exact (immediate_accepted operand final).1

theorem pushable_of_immediate {e : Expr} {place : Location} {x : Operand}
    (he : t.expr? s.symbols.value? = some e) (run : immediate ⟨e, place⟩ .byte s = .done x s')
    (final : s'.Grows T.state) : t.Pushable s.symbols.value? := by
  intro e' he'
  obtain rfl := Option.some.inj (he.symm.trans he')
  exact (immediate_accepted run final).2

theorem pushable_of_push {place : Location} {code : List Instruction}
    (run : push ⟨t.value s.symbols.value?, place⟩ s = .done code s') (final : s'.Grows T.state) :
    t.Pushable s.symbols.value? := by
  intro e he
  rw [Tree.value_of_expr? he] at run
  obtain ⟨x, s₁, operand, pushed⟩ := bind_eq_done.mp run
  cases pushed
  exact (immediate_accepted operand final).2

theorem pushable_of_pushes {p q : Location} {left right : List Instruction} {s₁ : State}
    (first : push ⟨a.value s.symbols.value?, p⟩ s = .done left s₁)
    (second : push ⟨b.value s.symbols.value?, q⟩ s₁ = .done right s') (final : s'.Grows T.state) :
    a.Pushable s.symbols.value? ∧ b.Pushable s.symbols.value? := by
  have final₁ : s₁.Grows T.state := ((push_reads (T := T) _).grows_of_done second).trans final
  obtain rfl := push_still first final₁
  exact ⟨pushable_of_push first final₁, pushable_of_push second final⟩

/-- A constant that has to be known is known, and fits. -/
theorem foldNow_accepted {e : Located Expr} {width : Width} {n? : Option UInt16}
    (run : foldNow e width s = .done n? s') (final : s'.Grows T.state) :
    s' = s ∧ ∃ v, e.value.eval s.symbols.value? = .ok v ∧ width.Holds v ∧
      n? = some v.toInt.toNat.toUInt16 := by
  obtain ⟨v, s₁, known, onward⟩ := bind_eq_done.mp run
  obtain ⟨value, rfl⟩ := known_eq_done.mp known
  by_cases fits : width.Holds v
  · rw [Constant.Width.check_eq, if_pos fits] at onward
    cases onward
    exact ⟨rfl, v, value, fits, rfl⟩
  · rw [Constant.Width.check_eq, if_neg fits] at onward
    cases onward
    exact absurd final (Accepted.not_grows (List.mem_append_right _ List.mem_cons_self) (by simp))

theorem knownByte_of_foldNow {e : Expr} {place : Location} {n? : Option UInt16}
    (he : t.expr? s.symbols.value? = some e) (run : foldNow ⟨e, place⟩ .byte s = .done n? s')
    (final : s'.Grows T.state) :
    s' = s ∧ t.KnownByte s.symbols.value? ∧ n? = some (t.field s.symbols.value?) := by
  obtain ⟨still, v, value, fits, folded⟩ := foldNow_accepted run final
  have value : e.eval s.symbols.value? = .ok v := value
  have known : t.known? s.symbols.value? = some v := by
    simp [Tree.known?, Tree.valueOf, he, value, Except.toOption]
  exact ⟨still, ⟨v, known, fits⟩, folded.trans (congrArg some (Tree.field_of_known? known).symm)⟩

/-- Operands are joined only if there is code for the whole. -/
theorem lowers_of_join {op : BinaryOperator} {p q : Location} {w : Located Value}
    (run : op.join ⟨a.value s.symbols.value?, p⟩ ⟨b.value s.symbols.value?, q⟩ s = .done w s')
    (final : s'.Grows T.state) :
    ((Tree.binary op a b).expr? s.symbols.value?).isSome ∨
      op.opcode?.isSome ∧ a.Pushable s.symbols.value? ∧ b.Pushable s.symbols.value? := by
  have stacked {opcode : Opcode} {p q : Location} (hop : op.opcode? = some opcode)
      (run : runtimeBinary opcode ⟨a.value s.symbols.value?, p⟩ ⟨b.value s.symbols.value?, q⟩ s =
        .done w s') :
      op.opcode?.isSome ∧ a.Pushable s.symbols.value? ∧ b.Pushable s.symbols.value? := by
    obtain ⟨left, s₁, first, onward⟩ := bind_eq_done.mp run
    obtain ⟨right, s₂, second, onward⟩ := bind_eq_done.mp onward
    cases onward
    exact ⟨by rw [hop]; rfl, pushable_of_pushes first second final⟩
  cases ho : op.arithmetic? with
  | none =>
    obtain ⟨opcode, hop, join⟩ := BinaryOperator.join_of_arithmetic?_none ho
    rw [join] at run
    exact .inr (stacked hop run)
  | some o =>
    obtain ⟨join, stack⟩ := BinaryOperator.join_of_arithmetic? ho
    rw [join] at run
    cases whole : (Tree.binary op a b).expr? s.symbols.value? with
    | some e => exact .inl rfl
    | none =>
      -- if both were constants, so would be the whole
      have runtime : ∀ x y, a.value s.symbols.value? = .constant x →
          b.value s.symbols.value? ≠ .constant y := fun x y hx hy => by
        simp [Tree.expr?, ho, Tree.expr?_of_value hx, Tree.expr?_of_value hy] at whole
      cases hop : op.opcode? with
      | some opcode =>
        rw [arithmetic_of_runtime runtime (stack.trans hop)] at run
        rw [← hop]
        exact .inr (stacked hop run)
      | none =>
        have fails : arithmetic o ⟨a.value s.symbols.value?, p⟩ ⟨b.value s.symbols.value?, q⟩ =
            fail .runtimeMultiply (p.span q) := by
          unfold arithmetic
          dsimp only
          split
          · next x y hx hy => exact absurd hy (runtime x y hx)
          · rw [stack.trans hop]
        rw [fails] at run
        contradiction

/-! ## Readers of levels -/

theorem levelOver_reads {C : Prop} (depth : Nat) (level : Level) :
    Reads T C (levelOver (primary depth) level) fun v => v.value.Scoped T.scope := by
  have operand {C : Prop} : Reads T C (primary depth) fun v => v.value.Scoped T.scope :=
    primary_reads depth
  have complement {C : Prop} : Reads T C (levelOver (primary depth) .complement) fun v =>
      v.value.Scoped T.scope := left_reads.bind (prefixed_reads complement_reads operand)
  have product {C : Prop} : Reads T C (levelOver (primary depth) .product) fun v =>
      v.value.Scoped T.scope := chain_reads (by simp [levels]) complement
  have sum {C : Prop} : Reads T C (levelOver (primary depth) .sum) fun v =>
      v.value.Scoped T.scope := chain_reads (by simp [levels]) product
  have shift {C : Prop} : Reads T C (levelOver (primary depth) .shift) fun v =>
      v.value.Scoped T.scope := chain_reads (by simp [levels]) sum
  have not {C : Prop} : Reads T C (levelOver (primary depth) .not) fun v =>
      v.value.Scoped T.scope :=
    left_reads.bind (prefixed_reads negate_reads (comparisonOver_reads operand))
  cases level with
  | or => exact expressionOver_reads operand
  | and => exact chain_reads (by simp [levels]) not
  | not => exact not
  | comparison => exact comparisonOver_reads operand
  | bitOr => exact arithmeticOver_reads operand
  | bitAnd => exact chain_reads (by simp [levels]) shift
  | shift => exact shift
  | sum => exact sum
  | product => exact product
  | complement => exact complement
  | primary => exact operand

theorem mem_levels {level : Level} (again : level.repeats = true) : level.operators ∈ levels := by
  cases level <;> first | contradiction | simp [Level.operators, levels]

/-! ## The judgement -/

/-- Where tokens that spell the tree are read on the way to `T`, there is code for the tree. -/
def Needs (T : Accepted) (level : Level) (t : Tree) (ls : List Lexeme) : Prop :=
  ∀ (depth : Nat) (s : State) (rest : List Lexeme) (v : Located Value) (s' : State),
    ls.length ≤ depth → s.pending = ls ++ rest → Next level.admits rest →
    levelOver (primary depth) level s = .done v s' → s'.Grows T.state →
    t.Lowers s.symbols.value?

/-- On the way to `T`, what is read is the tree, and there is code for it. -/
def Means (T : Accepted) (level : Level) (t : Tree) (ls : List Lexeme) : Prop :=
  ∀ (depth : Nat) (s : State) (rest : List Lexeme) (v : Located Value) (s' : State),
    ls.length ≤ depth → s.pending = ls ++ rest → Next level.stops rest →
    levelOver (primary depth) level s = .done v s' → s'.Grows T.state →
    t.Lowers s.symbols.value? ∧ v.value = t.value s.symbols.value? ∧ s.Took t.mentions rest s'

variable {level : Level} {ls las lbs rest : List Lexeme} {depth : Nat} {p q : Location}

theorem Needs.means (h : Needs T level t ls) (written : Written level t ls) :
    Means T level t ls := by
  intro depth s rest v s' deep pending stop run final
  have lowers := h depth s rest v s' deep pending (stop.mono fun _ => Level.admits_of_stops) run
    final
  obtain ⟨place, s₁, took, read⟩ :=
    (opens_of_written written).reads depth s rest deep pending stop lowers
  rw [read] at run
  cases run
  exact ⟨lowers, rfl, took⟩

/-! ## Operators -/

theorem needs_binary {op : BinaryOperator} (p : Location) (ha : Needs T op.level a las)
    (writtenA : Written op.level a las) (hb : Means T op.level.tighter b lbs) :
    Needs T op.level (.binary op a b) (las ++ ⟨.ok op.token, p⟩ :: lbs) := by
  intro depth s rest v s' deep pending admits run final
  simp only [List.length_append, List.length_cons] at deep
  have pending : s.pending = las ++ ⟨.ok op.token, p⟩ :: (lbs ++ rest) := by simpa using pending
  have next : Next op.level.admits (⟨.ok op.token, p⟩ :: (lbs ++ rest)) :=
    .inr ⟨_, _, _, rfl, op.admits_token⟩
  have lowersA := ha depth s _ v s' (by omega) pending next run final
  obtain ⟨place, fuel, s₁, enough, took₁, run₁⟩ :=
    opens_of_written writtenA depth s _ (by omega) pending next lowersA
  simp only [List.length_cons] at enough
  obtain ⟨fuel, rfl⟩ : ∃ n, fuel = n + 1 := ⟨fuel - 1, by omega⟩
  -- the run goes on with the operator
  rw [run₁, chainFrom, bind_of_done (peek_token took₁.pending), Option.bind_some,
    op.operators_token] at run
  dsimp only at run
  rw [bind_of_done (advance_token took₁.pending)] at run
  obtain ⟨rhs, s₂, read, onward⟩ := bind_eq_done.mp run
  obtain ⟨w, s₃, joined, onward⟩ := bind_eq_done.mp onward
  have again : op.level.repeats = true := by cases op <;> rfl
  have final₃ : s₃.Grows T.state := ((chainFrom_reads (T := T) (mem_levels again)
    (levelOver_reads depth _) _ _).grows_of_done onward).trans final
  have final₂ : s₂.Grows T.state := ((join_reads (T := T) (mem_levels again) op.operators_token _
    rhs).grows_of_done joined).trans final₃
  obtain ⟨lowersB, value, took₂⟩ := hb depth (s₁.behind p (lbs ++ rest)) rest rhs s₂ (by omega) rfl
    (admits.mono fun _ => Level.tighter_stops) read final₂
  have same : s₂.symbols.value? = s.symbols.value? := took₂.value?.trans took₁.value?
  obtain ⟨rhs, place'⟩ := rhs
  obtain rfl : rhs = b.value s.symbols.value? := by
    rw [State.behind_symbols, took₁.value?] at value
    exact value
  rw [State.behind_symbols, took₁.value?] at lowersB
  rw [← same] at joined
  have condition := lowers_of_join joined final₃
  rw [same] at condition
  exact ⟨⟨lowersA, lowersB⟩, condition⟩

/-- Behind what is compared. -/
theorem compared_grows {depth : Nat} {lhs v : Located Value} (run : (do
      match (← peek).bind comparison? with
      | none => return lhs
      | some opcode =>
        let _ ← advance
        let rhs ← arithmeticOver (primary depth)
        runtimeBinary opcode lhs rhs : Parser (Located Value)) s = .done v s') : s.Grows s' := by
  obtain ⟨next, s₁, peeked, onward⟩ := bind_eq_done.mp run
  refine ((peek_reads (T := .nothing true) (C := True)).grows_of_done peeked).trans ?_
  cases found : next.bind comparison? with
  | none =>
    rw [found] at onward
    cases onward
    exact .refl _
  | some opcode =>
    rw [found] at onward
    obtain ⟨tok, -, hop⟩ := Option.bind_eq_some_iff.mp found
    have operand {C : Prop} : Reads (.nothing true) C (arithmeticOver (primary depth)) fun v =>
        v.value.Scoped (Accepted.scope (.nothing true)) := levelOver_reads depth .bitOr
    exact (advance_reads.bind fun _ => operand.bind fun rhs =>
      (runtimeBinary_reads (isBinary_of_comparison? hop) lhs rhs).given
        fun (c : (lhs.value.Scoped _ ∧ True) ∧ _) => ⟨c.1.1, c.2⟩).grows_of_done onward

theorem needs_compare (op : Comparison) (p : Location) (ha : Means T .bitOr a las)
    (hb : Means T .bitOr b lbs) :
    Needs T .comparison (.compare op a b) (las ++ ⟨.ok op.token, p⟩ :: lbs) := by
  intro depth s rest v s' deep pending admits run final
  simp only [List.length_append, List.length_cons] at deep
  have pending : s.pending = las ++ ⟨.ok op.token, p⟩ :: (lbs ++ rest) := by simpa using pending
  have stop := admits.mono fun _ => Level.stops_of_admits rfl
  obtain ⟨lhs, s₁, readA, compared⟩ := bind_eq_done.mp run
  have final₁ : s₁.Grows T.state := (compared_grows compared).trans final
  obtain ⟨lowersA, valueA, took₁⟩ := ha depth s _ lhs s₁ (by omega) pending
    (.inr ⟨_, _, _, rfl, op.stops_token⟩) readA final₁
  rw [bind_of_done (peek_token took₁.pending), Option.bind_some, op.comparison?_token] at compared
  dsimp only at compared
  rw [bind_of_done (advance_token took₁.pending)] at compared
  obtain ⟨rhs, s₃, readB, joined⟩ := bind_eq_done.mp compared
  have binary := isBinary_of_comparison? op.comparison?_token
  have final₃ : s₃.Grows T.state :=
    ((runtimeBinary_reads (T := T) binary _ _).grows_of_done joined).trans final
  obtain ⟨lowersB, valueB, took₂⟩ := hb depth (s₁.behind p (lbs ++ rest)) rest rhs s₃ (by omega) rfl
    (stop.mono fun _ => Level.stops_mono (by decide)) readB final₃
  have same : s₃.symbols.value? = s.symbols.value? := took₂.value?.trans took₁.value?
  rw [State.behind_symbols, took₁.value?] at lowersB valueB
  obtain ⟨lhs, place⟩ := lhs
  obtain ⟨rhs, place'⟩ := rhs
  obtain rfl : lhs = a.value s.symbols.value? := valueA
  obtain rfl : rhs = b.value s.symbols.value? := valueB
  obtain ⟨left, s₄, first, onward⟩ := bind_eq_done.mp joined
  obtain ⟨right, s₅, second, onward⟩ := bind_eq_done.mp onward
  cases onward
  rw [← same] at first second
  obtain ⟨pushA, pushB⟩ := pushable_of_pushes first second final
  rw [same] at pushA pushB
  exact ⟨⟨lowersA, pushA⟩, lowersB, pushB⟩

/-- A sign in front of an operand: the operand is read, and then the sign is taken into account. -/
theorem signed_eq_done {operand : Parser (Located Value)} {sign : Token}
    {wrap : Located Value → Parser Value} {v : Located Value}
    (pending : s.pending = ⟨.ok sign, p⟩ :: rest)
    (run : (left >>= prefixed sign wrap operand) s = .done v s') :
    ∃ inner s₁ w, (left >>= prefixed sign wrap operand) (s.behind p rest) = .done inner s₁ ∧
      wrap inner s₁ = .done w s' := by
  rw [bind_of_done left_apply, pending, List.length_cons, prefixed,
    bind_of_done (accept_token pending), if_pos rfl, bind_of_done lastSeen_apply] at run
  obtain ⟨inner, s₁, read, onward⟩ := bind_eq_done.mp run
  obtain ⟨w, s₂, wrapped, onward⟩ := bind_eq_done.mp onward
  cases onward
  exact ⟨inner, s₁, w, read, wrapped⟩

theorem needs_negate (p : Location) (h : Means T .not t ls) :
    Needs T .not (.negate t) (⟨.ok (.keyword .NOT), p⟩ :: ls) := by
  intro depth s rest v s' deep pending admits run final
  obtain ⟨inner, s₁, w, read, wrapped⟩ := signed_eq_done pending run
  have final₁ : s₁.Grows T.state :=
    ((negate_reads (T := T) inner).grows_of_done wrapped).trans final
  obtain ⟨lowers, value, took⟩ := h depth (s.behind p (ls ++ rest)) rest inner s₁
    (Nat.le_of_succ_le deep) rfl (admits.mono fun _ => Level.stops_of_admits rfl) read final₁
  obtain ⟨inner, place⟩ := inner
  obtain rfl : inner = t.value s₁.symbols.value? := took.value? ▸ value
  obtain ⟨code, s₂, pushed, onward⟩ := bind_eq_done.mp wrapped
  cases onward
  have pushable := pushable_of_push pushed final
  rw [took.value?] at pushable
  exact ⟨lowers, pushable⟩

theorem needs_complement (p : Location) (h : Means T .complement t ls) :
    Needs T .complement (.complement t) (⟨.ok .bitNot, p⟩ :: ls) := by
  intro depth s rest v s' deep pending admits run final
  obtain ⟨inner, s₁, w, read, wrapped⟩ := signed_eq_done pending run
  have final₁ : s₁.Grows T.state :=
    ((complement_reads (T := T) inner).grows_of_done wrapped).trans final
  exact (h depth (s.behind p (ls ++ rest)) rest inner s₁ (Nat.le_of_succ_le deep) rfl
    (admits.mono fun _ => Level.stops_of_admits rfl) read final₁).1

/-- What is written at the next tighter level is read there first. -/
theorem needs_tighter (h : Needs T level.tighter t ls) (written : Written level.tighter t ls) :
    Needs T level t ls := by
  intro depth s rest v s' deep pending admits run final
  have stop := admits.mono fun _ => Level.tighter_stops
  have later := stop.mono fun _ => Level.admits_of_stops
  obtain ⟨tok, place, ls', first, -, notNot, notComplement⟩ := head_of_written written
  have head : s.pending = ⟨.ok tok, place⟩ :: (ls' ++ rest) := by rw [pending, first]; rfl
  by_cases again : level.repeats = true
  · rw [levelOver_eq_chain _ again] at run
    obtain ⟨w, s₁, read, onward⟩ := bind_eq_done.mp run
    obtain ⟨n, s₂, counted, onward⟩ := bind_eq_done.mp onward
    cases counted
    have final₁ : s₁.Grows T.state := ((chainFrom_reads (T := T) (mem_levels again)
      (levelOver_reads depth _) _ _).grows_of_done onward).trans final
    exact h depth s rest w s₁ deep pending later read final₁
  · cases level with
    | not =>
      have read : levelOver (primary depth) .comparison s = .done v s' :=
        (prefixed_other head (notNot (by decide)) _).symm.trans run
      exact h depth s rest v s' deep pending later read final
    | comparison =>
      obtain ⟨w, s₁, read, compared⟩ := bind_eq_done.mp run
      exact h depth s rest w s₁ deep pending later read ((compared_grows compared).trans final)
    | complement =>
      have read : levelOver (primary depth) .primary s = .done v s' :=
        (prefixed_other head (notComplement (by decide)) _).symm.trans run
      exact h depth s rest v s' deep pending later read final
    | primary => exact h depth s rest v s' deep pending later run final
    | _ => exact absurd rfl again

/-! ## What operators stand between -/

theorem needs_primary {tok : Token} {tail : List Lexeme} (inside : isSeparator tok = false)
    (h : ∀ (depth : Nat) (s : State) (rest : List Lexeme) (v : Value) (s' : State),
      tail.length ≤ depth → s.pending = tail ++ rest → Next Level.primary.stops rest →
      primaryFrom (primary depth) ⟨tok, p⟩ s = .done v s' → s'.Grows T.state →
      t.Lowers s.symbols.value?) :
    Needs T .primary t (⟨.ok tok, p⟩ :: tail) := by
  intro depth s rest v s' deep pending admits run final
  rw [List.cons_append] at pending
  obtain ⟨depth, rfl⟩ : ∃ n, depth = n + 1 := ⟨depth - 1, by simp at deep; omega⟩
  have run : primary (depth + 1) s = .done v s' := run
  rw [primary, bind_of_done (next_token _ pending inside)] at run
  obtain ⟨w, s₁, read, onward⟩ := bind_eq_done.mp run
  obtain ⟨seen, s₂, looked, onward⟩ := bind_eq_done.mp onward
  cases looked
  cases onward
  exact h depth (s.behind p (tail ++ rest)) rest w s' (Nat.le_of_succ_le_succ deep) rfl
    (admits.mono fun _ => Level.stops_of_admits rfl) read final

theorem constantOver_means {e : Located Expr} (h : Means T .bitOr t ls) (deep : ls.length ≤ depth)
    (pending : s.pending = ls ++ rest) (stop : Next Level.bitOr.stops rest)
    (run : constantOver (primary depth) s = .done e s') (final : s'.Grows T.state) :
    t.Lowers s.symbols.value? ∧ t.expr? s.symbols.value? = some e.value ∧
      s.Took t.mentions rest s' := by
  obtain ⟨⟨v, place⟩, s₁, read, onward⟩ := bind_eq_done.mp run
  cases v with
  | runtime code => contradiction
  | constant e =>
    cases onward
    obtain ⟨lowers, value, took⟩ := h depth s rest _ _ deep pending stop read final
    exact ⟨lowers, Tree.expr?_of_value value.symm, took⟩

theorem indexOver_means {e : Expr} (h : Means T .bitOr t ls) (deep : ls.length ≤ depth)
    (pending : s.pending = ⟨.ok .openSquare, p⟩ :: (ls ++ ⟨.ok .closeSquare, q⟩ :: rest))
    (run : indexOver (primary depth) s = .done e s') (final : s'.Grows T.state) :
    t.Lowers s.symbols.value? ∧ t.expr? s.symbols.value? = some e ∧ s.Took t.mentions rest s' := by
  rw [indexOver, bind_of_done (expect_token _ pending)] at run
  obtain ⟨index, s₁, read, onward⟩ := bind_eq_done.mp run
  obtain ⟨_, s₂, closed, onward⟩ := bind_eq_done.mp onward
  cases onward
  have final₁ : s₁.Grows T.state :=
    ((expect_reads (T := T) (C := True) _ _).grows_of_done closed).trans final
  obtain ⟨lowers, expr, took⟩ := constantOver_means h deep rfl
    (.closeSquare q rest) read final₁
  obtain rfl := eq_behind_of_expect took.pending closed
  exact ⟨lowers, expr, took.behind_trans.trans_behind⟩

theorem needs_element (array : Located String) (p q : Location) (h : Means T .bitOr t ls) :
    Needs T .primary (.element array t)
      (⟨.ok (.identifier array.value), array.place⟩ :: ⟨.ok .openSquare, p⟩ ::
        (ls ++ [⟨.ok .closeSquare, q⟩])) := by
  refine needs_primary rfl fun depth s rest v s' deep pending _ run final => ?_
  simp only [List.cons_append, List.append_assoc, List.nil_append] at pending
  rw [primaryFrom_identifier, bind_of_done (peek_token pending), if_pos rfl,
    bind_of_done (mention_apply _ _ _)] at run
  obtain ⟨e, s₁, read, onward⟩ := bind_eq_done.mp run
  cases onward
  have short : ls.length ≤ depth := by
    simp at deep
    omega
  have used : s.Took [(array, .array)] s.pending (s.mention (array, .array)) := .mention rfl _
  obtain ⟨lowers, expr, -⟩ :=
    indexOver_means h short (used.pending.trans pending) read final
  rw [used.value?] at lowers expr
  exact ⟨lowers, by rw [expr]; rfl⟩

/-- A variable that is read is found. -/
theorem variableFrom_still {base : Located VariableBase} {v : Variable}
    (run : variableFrom ⟨variableToken base.value, base.place⟩ (s.behind base.place rest) =
      .done v s') :
    v = ⟨base.value, 0⟩ ∧ s.Took (Tree.mentions.ofBase base) rest s' := by
  obtain ⟨s₁, took, read⟩ := variableFrom_base base s rest
  rw [read] at run
  cases run
  exact ⟨rfl, took⟩

/-- A displacement is known and a byte, and leads to the variable that many places further on. -/
theorem variableOver_means {base : Located VariableBase} {v : Variable} (h : Means T .bitOr t ls)
    (deep : ls.length ≤ depth)
    (pending : s.pending = ⟨.ok (variableToken base.value), base.place⟩ ::
      ⟨.ok .openSquare, p⟩ :: (ls ++ ⟨.ok .closeSquare, q⟩ :: rest))
    (run : variableOver (primary depth) s = .done v s') (final : s'.Grows T.state) :
    (t.Lowers s.symbols.value? ∧ t.KnownByte s.symbols.value?) ∧
      v = Variable.offset ⟨base.value, 0⟩ (t.field s.symbols.value?) ∧
      s.Took (Tree.mentions.ofBase base ++ t.mentions) rest s' := by
  rw [variableOver, bind_of_done (next_token _ pending (isSeparator_variableToken _))] at run
  obtain ⟨w, s₁, found, onward⟩ := bind_eq_done.mp run
  obtain ⟨rfl, took₁⟩ := variableFrom_still found
  rw [bind_of_done (peek_token took₁.pending), if_pos rfl] at onward
  obtain ⟨e, s₂, read, onward⟩ := bind_eq_done.mp onward
  rw [bind_of_done lastSeen_apply] at onward
  obtain ⟨n?, s₃, folded, onward⟩ := bind_eq_done.mp onward
  have final₃ : s₃.Grows T.state := by
    cases n? <;> cases onward <;> exact final
  have final₂ : s₂.Grows T.state :=
    ((foldNow_reads (T := T) (C := True) _ _).grows_of_done folded).trans final₃
  obtain ⟨lowers, expr, took₂⟩ := indexOver_means h deep took₁.pending read final₂
  have same : s₂.symbols.value? = s.symbols.value? := took₂.value?.trans took₁.value?
  rw [took₁.value?] at lowers expr
  obtain ⟨rfl, known, rfl⟩ := knownByte_of_foldNow (t := t) (same ▸ expr) folded final₃
  cases onward
  exact ⟨⟨lowers, same ▸ known⟩, by rw [same], took₁.trans took₂⟩

theorem needs_displaced {access : Access} {signs : List Lexeme} (base : Located VariableBase)
    (p q : Location) (hsigns : access.Written signs) (h : Means T .bitOr t ls) :
    Needs T .primary (.displaced access base t)
      (signs ++ ⟨.ok (variableToken base.value), base.place⟩ ::
        ⟨.ok .openSquare, p⟩ :: (ls ++ [⟨.ok .closeSquare, q⟩])) := by
  cases hsigns with
  | content p₁ =>
    rw [List.singleton_append]
    refine needs_primary rfl fun depth s rest v s' deep pending _ run final => ?_
    simp only [List.cons_append, List.append_assoc, List.nil_append] at pending
    have run : (peek >>= _) s = .done v s' := run
    rw [bind_of_done (peek_token pending)] at run
    have found : (variableOver (primary depth) >>= fun w =>
        pure (Value.runtime [.code .PUSH_I [.variable w]])) s = .done v s' := by
      obtain ⟨base | name, place⟩ := base <;> exact run
    obtain ⟨w, s₁, read, onward⟩ := bind_eq_done.mp found
    cases onward
    have short : ls.length ≤ depth := by
      simp at deep
      omega
    exact (variableOver_means h short pending read final).1
  | number p₁ p₂ =>
    simp only [List.cons_append, List.nil_append]
    refine needs_primary rfl fun depth s rest v s' deep pending _ run final => ?_
    simp only [List.cons_append, List.append_assoc, List.nil_append] at pending
    have run : (peek >>= _) s = .done v s' := run
    rw [bind_of_done (peek_token pending)] at run
    have run : (advance >>= _) s = .done v s' := run
    rw [bind_of_done (advance_token pending)] at run
    obtain ⟨w, s₁, read, onward⟩ := bind_eq_done.mp run
    cases onward
    have short : ls.length ≤ depth := by
      simp at deep
      omega
    exact (variableOver_means (s := s.behind p₂ _) h short rfl read final).1

theorem closeParen_grows (run : closeParen s = .done () s') : s.Grows s' :=
  (closeParen_reads (T := .nothing true) (C := True)).grows_of_done run

theorem needs_parentheses (p q : Location) (h : Means T .or t ls) :
    Needs T .primary t (⟨.ok .openParen, p⟩ :: (ls ++ [⟨.ok .closeParen, q⟩])) := by
  refine needs_primary rfl fun depth s rest v s' deep pending _ run final => ?_
  rw [List.append_assoc] at pending
  obtain ⟨inner, s₁, read, onward⟩ := bind_eq_done.mp run
  obtain ⟨_, s₂, closed, onward⟩ := bind_eq_done.mp onward
  cases onward
  exact (h depth s (⟨.ok .closeParen, q⟩ :: rest) inner s₁ (by simp at deep; omega) pending
    (.closeParen q rest) read ((closeParen_grows closed).trans final)).1

theorem needs_indirect (p q r : Location) (h : Means T .or t ls) :
    Needs T .primary (.indirect t)
      (⟨.ok .indirection, p⟩ :: ⟨.ok .openParen, q⟩ :: (ls ++ [⟨.ok .closeParen, r⟩])) := by
  refine needs_primary rfl fun depth s rest v s' deep pending _ run final => ?_
  simp only [List.cons_append, List.append_assoc, List.nil_append] at pending
  have run : (peek >>= _) s = .done v s' := run
  rw [bind_of_done (peek_token pending)] at run
  have run : (advance >>= _) s = .done v s' := run
  rw [bind_of_done (advance_token pending)] at run
  obtain ⟨inner, s₁, read, onward⟩ := bind_eq_done.mp run
  obtain ⟨_, s₂, closed, onward⟩ := bind_eq_done.mp onward
  obtain ⟨code, s₃, pushed, onward⟩ := bind_eq_done.mp onward
  cases onward
  have final₂ : s₂.Grows T.state := ((push_reads (T := T) inner).grows_of_done pushed).trans final
  obtain ⟨lowers, value, took⟩ := h depth (s.behind q _) (⟨.ok .closeParen, r⟩ :: rest) inner s₁
    (by simp at deep; omega) rfl (.closeParen r rest) read
    ((closeParen_grows closed).trans final₂)
  obtain rfl := eq_behind_of_expect took.pending closed
  obtain ⟨inner, place⟩ := inner
  have same : (s₁.behind r rest).symbols.value? = s.symbols.value? := took.value?
  obtain rfl : inner = t.value (s₁.behind r rest).symbols.value? := same ▸ value
  have pushable := pushable_of_push pushed final
  exact ⟨lowers, same ▸ pushable⟩

theorem needs_pairing (f : Pairing) (p₁ p₂ p₃ p₄ : Location) (ha : Means T .or a las)
    (hb : Means T .or b lbs) :
    Needs T .primary (.pairing f a b)
      (⟨.ok (.keyword f.keyword), p₁⟩ :: ⟨.ok .openParen, p₂⟩ ::
        (las ++ ⟨.ok .comma, p₃⟩ :: (lbs ++ [⟨.ok .closeParen, p₄⟩]))) := by
  refine needs_primary rfl fun depth s rest v s' deep pending _ run final => ?_
  simp only [List.length_append, List.length_cons, List.length_nil] at deep
  simp only [List.cons_append, List.append_assoc, List.nil_append] at pending
  rw [primaryFrom_pairing, openParen, bind_of_done (expect_token _ pending)] at run
  obtain ⟨lhs, s₁, readA, onward⟩ := bind_eq_done.mp run
  obtain ⟨_, s₂, between, onward⟩ := bind_eq_done.mp onward
  obtain ⟨rhs, s₃, readB, onward⟩ := bind_eq_done.mp onward
  obtain ⟨_, s₄, closed, onward⟩ := bind_eq_done.mp onward
  obtain ⟨left, s₅, first, onward⟩ := bind_eq_done.mp onward
  obtain ⟨right, s₆, second, onward⟩ := bind_eq_done.mp onward
  cases onward
  have final₅ : s₅.Grows T.state := ((push_reads (T := T) rhs).grows_of_done second).trans final
  have final₄ : s₄.Grows T.state := ((push_reads (T := T) lhs).grows_of_done first).trans final₅
  have final₃ : s₃.Grows T.state := (closeParen_grows closed).trans final₄
  have final₂ : s₂.Grows T.state :=
    ((levelOver_reads (T := T) (C := True) depth .or).grows_of_done readB).trans final₃
  have final₁ : s₁.Grows T.state :=
    ((comma_reads (T := T) (C := True)).grows_of_done between).trans final₂
  obtain ⟨lowersA, valueA, took₁⟩ := ha depth (s.behind p₂ _)
    (⟨.ok .comma, p₃⟩ :: (lbs ++ ⟨.ok .closeParen, p₄⟩ :: rest)) lhs s₁ (by omega) rfl
    (.comma p₃ _) readA final₁
  obtain rfl := eq_behind_of_expect took₁.pending between
  obtain ⟨lowersB, valueB, took₂⟩ := hb depth (s₁.behind p₃ _)
    (⟨.ok .closeParen, p₄⟩ :: rest) rhs s₃ (by omega) rfl (.closeParen p₄ rest) readB final₃
  obtain rfl := eq_behind_of_expect took₂.pending closed
  have same₁ : s₁.symbols.value? = s.symbols.value? := took₁.value?
  have same : (s₃.behind p₄ rest).symbols.value? = s.symbols.value? := took₂.value?.trans same₁
  rw [State.behind_symbols] at lowersA valueA lowersB valueB
  rw [same₁] at lowersB valueB
  obtain ⟨lhs, place⟩ := lhs
  obtain ⟨rhs, place'⟩ := rhs
  obtain rfl : lhs = a.value (s₃.behind p₄ rest).symbols.value? := same ▸ valueA
  obtain rfl : rhs = b.value (s₃.behind p₄ rest).symbols.value? := same ▸ valueB
  obtain ⟨pushA, pushB⟩ := pushable_of_pushes first second final
  exact ⟨⟨lowersA, same ▸ pushA⟩, lowersB, same ▸ pushB⟩

/-- Behind the first argument of `RANDOM`. -/
theorem limit_grows {second : Bool} {e : Located Expr} {v : Value} (run : (if second then (do
      let other ← constantOver (primary depth)
      closeParen
      randomBetween e other (e.place.span (← lastSeen)))
    else (do
      closeParen
      return .runtime [.code .PUSH_RANDOM [← immediate e .byte]])) s = .done v s') :
    s.Grows s' := by
  have reads : Reads (.nothing true) (e.value.Scoped (Accepted.scope (.nothing true)))
      (if second then (do
        let other ← constantOver (primary depth)
        closeParen
        randomBetween e other (e.place.span (← lastSeen)))
      else (do
        closeParen
        return .runtime [.code .PUSH_RANDOM [← immediate e .byte]])) fun _ => True := by
    split
    · exact (constantOver_reads (primary_reads depth)).bind fun _ => closeParen_reads.bind fun _ =>
        lastSeen_reads.bind fun _ => (randomBetween_reads _ _ _).mono id fun _ _ _ => trivial
    · exact closeParen_reads.bind fun _ => ((immediate_reads e .byte).given fun c => c.1).bind
        fun _ => .pure fun _ => trivial
  exact reads.grows_of_done run

theorem needs_limited (f : Limited) (p₁ p₂ p₃ : Location) (h : Means T .bitOr t ls) {tok : Token}
    {ls' : List Lexeme} (head : ls = ⟨.ok tok, p⟩ :: ls') (ne : tok ≠ .closeParen) :
    Needs T .primary (.limited f t)
      (⟨.ok (.keyword f.keyword), p₁⟩ :: ⟨.ok .openParen, p₂⟩ ::
        (ls ++ [⟨.ok .closeParen, p₃⟩])) := by
  refine needs_primary rfl fun depth s rest v s' deep pending _ run final => ?_
  simp only [List.cons_append, List.append_assoc, List.nil_append] at pending
  have short : ls.length ≤ depth := by
    simp at deep
    omega
  have opened : (s.behind p₂ (ls ++ ⟨.ok .closeParen, p₃⟩ :: rest)).pending =
      ⟨.ok tok, p⟩ :: (ls' ++ ⟨.ok .closeParen, p₃⟩ :: rest) := by rw [head]; rfl
  have stop : Next Level.bitOr.stops (⟨.ok .closeParen, p₃⟩ :: rest) :=
    .closeParen p₃ rest
  cases f with
  | random =>
    have run : (expect _ _ >>= _) s = .done v s' := run
    rw [bind_of_done (expect_token _ pending), bind_of_done (accept_of_ne opened ne),
      if_neg Bool.false_ne_true] at run
    obtain ⟨e, s₁, read, onward⟩ := bind_eq_done.mp run
    obtain ⟨second, s₂, accepted, onward⟩ := bind_eq_done.mp onward
    have final₂ : s₂.Grows T.state := (limit_grows onward).trans final
    have final₁ : s₁.Grows T.state :=
      ((accept_reads (T := T) (C := True) .comma).grows_of_done accepted).trans final₂
    obtain ⟨lowers, expr, took⟩ := constantOver_means h short rfl stop read final₁
    rw [accept_of_ne took.pending (by decide)] at accepted
    cases accepted
    obtain ⟨_, s₃, closed, onward⟩ := bind_eq_done.mp onward
    obtain rfl := eq_behind_of_expect took.pending closed
    obtain ⟨x, s₄, limit, onward⟩ := bind_eq_done.mp onward
    cases onward
    have same : (s₁.behind p₃ rest).symbols.value? = s.symbols.value? := took.value?
    have pushable := pushable_of_immediate (t := t) (same ▸ expr) limit final
    exact ⟨lowers, by rw [State.behind_symbols] at expr; rw [expr]; rfl, same ▸ pushable⟩
  | inkey =>
    have run : (expect _ _ >>= fun _ => timeoutOver (primary depth) >>= _) s = .done v s' := run
    rw [bind_of_done (expect_token _ pending)] at run
    obtain ⟨x, s₁, timed, onward⟩ := bind_eq_done.mp run
    obtain ⟨_, s₂, closed, onward⟩ := bind_eq_done.mp onward
    cases onward
    have final₁ : s₁.Grows T.state := (closeParen_grows closed).trans final
    rw [timeoutOver, bind_of_done (peek_token opened), if_neg (by simpa using ne)] at timed
    obtain ⟨e, s₃, read, limit⟩ := bind_eq_done.mp timed
    have final₃ : s₃.Grows T.state :=
      ((immediate_reads (T := T) e .byte).grows_of_done limit).trans final₁
    obtain ⟨lowers, expr, took⟩ := constantOver_means h short rfl stop read final₃
    have same : s₃.symbols.value? = s.symbols.value? := took.value?
    have pushable := pushable_of_immediate (t := t) (same ▸ expr) limit final₁
    exact ⟨lowers, by rw [State.behind_symbols] at expr; rw [expr]; rfl, same ▸ pushable⟩

theorem randomBetween_means {x y : Expr} {place : Location} {v : Value}
    (hx : a.expr? s.symbols.value? = some x) (hy : b.expr? s.symbols.value? = some y)
    (run : randomBetween ⟨x, p⟩ ⟨y, q⟩ place s = .done v s') (final : s'.Grows T.state) :
    a.KnownByte s.symbols.value? ∧ b.KnownByte s.symbols.value? ∧
      a.field s.symbols.value? < b.field s.symbols.value? := by
  obtain ⟨low?, s₁, first, onward⟩ := bind_eq_done.mp run
  obtain ⟨high?, s₂, second, onward⟩ := bind_eq_done.mp onward
  have final₂ : s₂.Grows T.state := by
    cases low? with
    | none =>
      cases onward
      exact final
    | some low =>
      cases high? with
      | none =>
        cases onward
        exact final
      | some high =>
        dsimp only at onward
        split at onward <;> cases onward
        exact final
  have final₁ : s₁.Grows T.state :=
    ((foldNow_reads (T := T) (C := True) _ _).grows_of_done second).trans final₂
  obtain ⟨rfl, knownA, rfl⟩ := knownByte_of_foldNow hx first final₁
  obtain ⟨rfl, knownB, rfl⟩ := knownByte_of_foldNow hy second final₂
  refine ⟨knownA, knownB, ?_⟩
  dsimp only at onward
  split at onward
  · next lt => exact lt
  · contradiction

theorem needs_between (p₁ p₂ p₃ p₄ : Location) (ha : Means T .bitOr a las)
    (hb : Means T .bitOr b lbs) {tok : Token} {ls' : List Lexeme}
    (head : las = ⟨.ok tok, p⟩ :: ls') (ne : tok ≠ .closeParen) :
    Needs T .primary (.between a b)
      (⟨.ok (.keyword .RANDOM), p₁⟩ :: ⟨.ok .openParen, p₂⟩ ::
        (las ++ ⟨.ok .comma, p₃⟩ :: (lbs ++ [⟨.ok .closeParen, p₄⟩]))) := by
  refine needs_primary rfl fun depth s rest v s' deep pending _ run final => ?_
  simp only [List.length_append, List.length_cons, List.length_nil] at deep
  simp only [List.cons_append, List.append_assoc, List.nil_append] at pending
  have shortA : las.length ≤ depth := by omega
  have shortB : lbs.length ≤ depth := by omega
  have opened : (s.behind p₂ (las ++ ⟨.ok .comma, p₃⟩ :: (lbs ++ ⟨.ok .closeParen, p₄⟩ :: rest))
      ).pending = ⟨.ok tok, p⟩ :: (ls' ++ ⟨.ok .comma, p₃⟩ ::
        (lbs ++ ⟨.ok .closeParen, p₄⟩ :: rest)) := by rw [head]; rfl
  have run : (expect _ _ >>= _) s = .done v s' := run
  rw [bind_of_done (expect_token _ pending), bind_of_done (accept_of_ne opened ne),
    if_neg Bool.false_ne_true] at run
  obtain ⟨x, s₁, readA, onward⟩ := bind_eq_done.mp run
  obtain ⟨second, s₂, accepted, onward⟩ := bind_eq_done.mp onward
  have final₂ : s₂.Grows T.state := (limit_grows onward).trans final
  have final₁ : s₁.Grows T.state :=
    ((accept_reads (T := T) (C := True) .comma).grows_of_done accepted).trans final₂
  obtain ⟨lowersA, exprA, took₁⟩ := constantOver_means ha shortA rfl
    (.comma p₃ _) readA final₁
  rw [accept_token took₁.pending] at accepted
  cases accepted
  obtain ⟨y, s₃, readB, onward⟩ := bind_eq_done.mp onward
  obtain ⟨_, s₄, closed, onward⟩ := bind_eq_done.mp onward
  rw [bind_of_done lastSeen_apply] at onward
  have final₄ : s₄.Grows T.state :=
    ((randomBetween_reads (T := T) (C := True) _ _ _).grows_of_done onward).trans final
  obtain ⟨lowersB, exprB, took₂⟩ := constantOver_means hb shortB rfl
    (.closeParen p₄ rest) readB ((closeParen_grows closed).trans final₄)
  obtain rfl := eq_behind_of_expect took₂.pending closed
  have same₁ : s₁.symbols.value? = s.symbols.value? := took₁.value?
  have same : (s₃.behind p₄ rest).symbols.value? = s.symbols.value? := took₂.value?.trans same₁
  rw [State.behind_symbols] at lowersA exprA lowersB exprB
  rw [same₁] at lowersB exprB
  have means := randomBetween_means (a := a) (b := b) (same ▸ exprA) (same ▸ exprB) onward final
  rw [same] at means
  exact ⟨⟨lowersA, means.1⟩, ⟨lowersB, means.2.1⟩, means.2.2⟩

/-! ### Attributes -/

/-- A part is known and not too great. -/
theorem isPart_of_field {name : String} {greatest v : UInt16} {s₁ : State} {e : Located Expr}
    (h : Means T .bitOr t ls) (deep : ls.length ≤ depth) (pending : s.pending = ls ++ rest)
    (stop : Next Level.bitOr.stops rest) (read : constantOver (primary depth) s = .done e s₁)
    (valued : fieldValue name greatest e s₁ = .done v s') (final : s'.Grows T.state) :
    (t.Lowers s.symbols.value? ∧ t.IsPart s.symbols.value? greatest) ∧
      s.Took t.mentions rest s' := by
  have final₁ : s₁.Grows T.state :=
    ((fieldValue_reads (T := T) (C := True) _ _ _).grows_of_done valued).trans final
  obtain ⟨lowers, expr, took⟩ := constantOver_means h deep pending stop read final₁
  have same : s₁.symbols.value? = s.symbols.value? := took.value?
  obtain ⟨n?, s₂, folded, onward⟩ := bind_eq_done.mp valued
  have final₂ : s₂.Grows T.state := by
    cases n? with
    | none =>
      cases onward
      exact final
    | some n =>
      dsimp only at onward
      split at onward
      · cases onward
        exact final
      · obtain ⟨_, s₃, reported, onward⟩ := bind_eq_done.mp onward
        cases onward
        exact ((report_reads (T := T) (C := True) _ (by simp)).grows_of_done reported).trans final
  obtain ⟨rfl, known, rfl⟩ := knownByte_of_foldNow (t := t) (same ▸ expr) folded final₂
  dsimp only at onward
  split at onward
  · next le =>
    cases onward
    rw [same] at known le
    exact ⟨⟨lowers, known, le⟩, took⟩
  · obtain ⟨_, s₃, reported, onward⟩ := bind_eq_done.mp onward
    cases reported
    cases onward
    exact absurd final (Accepted.not_grows (List.mem_append_right _ List.mem_cons_self) (by simp))

theorem fieldsOver_means_cons {name : String} {greatest : UInt16} {field : String × UInt16}
    {fields : List (String × UInt16)} {vs : List UInt16} (h : Means T .bitOr t ls)
    (deep : ls.length ≤ depth) (pending : s.pending = ls ++ ⟨.ok .comma, p⟩ :: rest)
    (run : fieldsOver (primary depth) ((name, greatest) :: field :: fields) s = .done vs s')
    (final : s'.Grows T.state) :
    (t.Lowers s.symbols.value? ∧ t.IsPart s.symbols.value? greatest) ∧
      ∃ s₁ vs', s₁.symbols.value? = s.symbols.value? ∧ s₁.pending = rest ∧
        fieldsOver (primary depth) (field :: fields) s₁ = .done vs' s' := by
  obtain ⟨e, s₁, read, onward⟩ := bind_eq_done.mp run
  obtain ⟨v, s₂, valued, onward⟩ := bind_eq_done.mp onward
  rw [if_neg (by simp)] at onward
  obtain ⟨_, s₃, between, onward⟩ := bind_eq_done.mp onward
  obtain ⟨vs', s₄, others, onward⟩ := bind_eq_done.mp onward
  cases onward
  have final₃ : s₃.Grows T.state := ((fieldsOver_reads (T := T) (C := True) (primary_reads depth)
    _).grows_of_done others).trans final
  have final₂ : s₂.Grows T.state :=
    ((comma_reads (T := T) (C := True)).grows_of_done between).trans final₃
  obtain ⟨part, took⟩ := isPart_of_field h deep pending (.comma p rest) read valued
    final₂
  obtain rfl := eq_behind_of_expect took.pending between
  exact ⟨part, s₂.behind p rest, vs', took.value?, rfl, others⟩

theorem fieldsOver_means_last {name : String} {greatest : UInt16} {vs : List UInt16}
    (h : Means T .bitOr t ls) (deep : ls.length ≤ depth) (pending : s.pending = ls ++ rest)
    (stop : Next Level.bitOr.stops rest)
    (run : fieldsOver (primary depth) [(name, greatest)] s = .done vs s')
    (final : s'.Grows T.state) :
    t.Lowers s.symbols.value? ∧ t.IsPart s.symbols.value? greatest := by
  obtain ⟨e, s₁, read, onward⟩ := bind_eq_done.mp run
  obtain ⟨v, s₂, valued, onward⟩ := bind_eq_done.mp onward
  have onward : (pure [v] : Parser (List UInt16)) s₂ = .done vs s' := onward
  cases onward
  exact (isPart_of_field h deep pending stop read valued final).1

theorem needs_colours (mask : Bool) (p₁ p₂ p₃ p₄ p₅ p₆ : Location) {c d : Tree}
    {lcs lds : List Lexeme} (ha : Means T .bitOr a las) (hb : Means T .bitOr b lbs)
    (hc : Means T .bitOr c lcs) (hd : Means T .bitOr d lds) :
    Needs T .primary (.colours mask a b c d)
      (⟨.ok (.keyword (attributeKeyword mask)), p₁⟩ :: ⟨.ok .openParen, p₂⟩ ::
        (las ++ ⟨.ok .comma, p₃⟩ :: (lbs ++ ⟨.ok .comma, p₄⟩ :: (lcs ++ ⟨.ok .comma, p₅⟩ ::
          (lds ++ [⟨.ok .closeParen, p₆⟩]))))) := by
  refine needs_primary rfl fun depth s rest v s' deep pending _ run final => ?_
  simp only [List.length_append, List.length_cons, List.length_nil] at deep
  simp only [List.cons_append, List.append_assoc, List.nil_append] at pending
  have run : attributeOver (primary depth) mask s = .done v s' := by
    cases mask <;> exact run
  rw [attributeOver, openParen, bind_of_done (expect_token _ pending), fields_eq] at run
  obtain ⟨vs, s₀, fields, onward⟩ := bind_eq_done.mp run
  obtain ⟨_, s₅, closed, onward⟩ := bind_eq_done.mp onward
  cases onward
  have final₀ : s₀.Grows T.state := (closeParen_grows closed).trans final
  obtain ⟨partA, s₁, _, same₁, pending₁, fields⟩ :=
    fieldsOver_means_cons ha (by omega) rfl fields final₀
  obtain ⟨partB, s₂, _, same₂, pending₂, fields⟩ :=
    fieldsOver_means_cons hb (by omega) pending₁ fields final₀
  obtain ⟨partC, s₃, _, same₃, pending₃, fields⟩ :=
    fieldsOver_means_cons hc (by omega) pending₂ fields final₀
  have partD := fieldsOver_means_last hd (by omega) pending₃
    (.closeParen p₆ rest) fields final₀
  rw [same₁] at partB same₂
  rw [same₂] at partC same₃
  rw [same₃] at partD
  exact ⟨partA, partB, partC, partD⟩

/-! ## All levels -/

theorem needs_of_written (h : Written level t ls) : Needs T level t ls := by
  induction h with
  | number | constant | reference | query => exact fun _ _ _ _ _ _ _ _ _ _ => trivial
  | displaced base p q hsigns h ih => exact needs_displaced base p q hsigns (ih.means h)
  | indirect p q r h ih => exact needs_indirect p q r (ih.means h)
  | element array p q h ih => exact needs_element array p q (ih.means h)
  | limited f p₁ p₂ p₃ h ih =>
    obtain ⟨tok, place, ls', first, ⟨notClosed, -⟩, -⟩ := head_of_written h
    exact needs_limited f p₁ p₂ p₃ (ih.means h) first notClosed
  | between p₁ p₂ p₃ p₄ ha hb iha ihb =>
    obtain ⟨tok, place, ls', first, ⟨notClosed, -⟩, -⟩ := head_of_written ha
    exact needs_between p₁ p₂ p₃ p₄ (iha.means ha) (ihb.means hb) first notClosed
  | colours mask p₁ p₂ p₃ p₄ p₅ p₆ ha hb hc hd iha ihb ihc ihd =>
    exact needs_colours mask p₁ p₂ p₃ p₄ p₅ p₆ (iha.means ha) (ihb.means hb) (ihc.means hc)
      (ihd.means hd)
  | pairing f p₁ p₂ p₃ p₄ ha hb iha ihb =>
    exact needs_pairing f p₁ p₂ p₃ p₄ (iha.means ha) (ihb.means hb)
  | parentheses p q h ih => exact needs_parentheses p q (ih.means h)
  | complement p h ih => exact needs_complement p (ih.means h)
  | negate p h ih => exact needs_negate p (ih.means h)
  | compare op p ha hb iha ihb => exact needs_compare op p (iha.means ha) (ihb.means hb)
  | binary op p ha hb iha ihb => exact needs_binary p iha ha (ihb.means hb)
  | tighter h ih => exact needs_tighter ih h

/-- Tokens that spell a tree are read as that tree wherever nothing is wrong in the end. -/
theorem means_of_written (h : Written level t ls) : Means T level t ls :=
  (needs_of_written h).means h

theorem expression_means {v : Located Value} (written : Written .or t ls)
    (pending : s.pending = ls ++ rest) (ends : Next (goesOn · = false) rest)
    (run : expression s = .done v s') (final : s'.Grows T.state) :
    t.Lowers s.symbols.value? ∧ v.value = t.value s.symbols.value? ∧
      s.Took t.mentions rest s' := by
  have deep : ls.length ≤ s.pending.length + 1 := by
    simp only [pending, List.length_append]
    omega
  exact means_of_written written _ s rest v s' deep pending (ends.mono fun _ => stops_or_of_goesOn)
    run final

end Parser

end Gamebook.Grammar
