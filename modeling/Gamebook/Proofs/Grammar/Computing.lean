import Gamebook.Proofs.Grammar.Folding
import Gamebook.Proofs.Grammar.Lowering
import Gamebook.Proofs.Memory.ReadBack

/-!
# Trees in memory

What a tree comes to depends on the constants that are known, and more of them are known at the end
of a script than where the tree is written. This makes no difference to what ends up in memory. What
had to be known is known and does not change (`Tree.expr?_later`), and a constant that was kept for
later has the byte of its value in the end. So the bytes in memory are those of the code that the
tree has when all names are known (`Tree.InMemory`, `Tree.inMemory_of_code`).
-/

namespace Gamebook

theorem split_of_forall₂ {α β : Type} {R : α → β → Prop} {xs ys : List α} {ds : List β}
    (h : List.Forall₂ R (xs ++ ys) ds) :
    ∃ us vs, ds = us ++ vs ∧ List.Forall₂ R xs us ∧ List.Forall₂ R ys vs := by
  refine ⟨ds.take xs.length, ds.drop xs.length, (List.take_append_drop _ _).symm, ?_, ?_⟩
  · simpa using List.forall₂_take xs.length h
  · simpa using List.forall₂_drop xs.length h

theorem singleton_of_forall₂ {α β : Type} {R : α → β → Prop} {x : α} {ds : List β}
    (h : List.Forall₂ R [x] ds) : ∃ d, ds = [d] ∧ R x d := by
  obtain ⟨d, _, here, rest, rfl⟩ := List.forall₂_cons_left_iff.mp h
  obtain rfl := List.forall₂_nil_left_iff.mp rest
  exact ⟨d, rfl, here⟩

/-- An instruction with one operand is in memory with what becomes of the operand. -/
theorem Memory.Context.Resolves.becomes {c : Context} {op : Opcode} {x : Operand} {d : Decoded}
    {shape : OperandShape} (h : c.Resolves (.code op [x]) d) (one : op.operands = [shape]) :
    ∃ y, d = .code op [y] ∧ c.Becomes shape x y := by
  cases h with
  | code _ resolved =>
    rw [one] at resolved
    obtain ⟨y, rfl, becomes⟩ := singleton_of_forall₂ resolved
    exact ⟨y, rfl, becomes⟩

namespace Grammar

open Constant (Expr)
open Memory (Context)

namespace Tree

/-! ## What is known stays known -/

section Later

variable {lookup lookup' : String → Option Int64} {t : Tree} {e : Expr} {v : Int64}

theorem eval_later (later : ∀ name v, lookup name = some v → lookup' name = some v)
    (h : e.eval lookup = .ok v) : e.eval lookup' = .ok v := by
  rcases Expr.eval_settles later e with same | ⟨name, missing⟩
  · rw [same, h]
  · rw [h] at missing
    contradiction

theorem known?_later (later : ∀ name v, lookup name = some v → lookup' name = some v)
    (same : t.expr? lookup' = t.expr? lookup) (h : t.known? lookup = some v) :
    t.known? lookup' = some v := by
  obtain ⟨e, he, -⟩ := Option.bind_eq_some_iff.mp h
  have value := eval_later later (eval_of_known? he h)
  simp [known?, valueOf, same, he, value, Except.toOption]

theorem KnownByte.later (later : ∀ name v, lookup name = some v → lookup' name = some v)
    (same : t.expr? lookup' = t.expr? lookup) (h : t.KnownByte lookup) : t.KnownByte lookup' := by
  obtain ⟨v, known, byte⟩ := h
  exact ⟨v, known?_later later same known, byte⟩

theorem KnownByte.field_later (later : ∀ name v, lookup name = some v → lookup' name = some v)
    (same : t.expr? lookup' = t.expr? lookup) (h : t.KnownByte lookup) :
    t.field lookup' = t.field lookup := by
  obtain ⟨v, known, -⟩ := h
  rw [field_of_known? known, field_of_known? (known?_later later same known)]

theorem KnownByte.isSome (h : t.KnownByte lookup) : (t.expr? lookup).isSome := by
  obtain ⟨e, he⟩ := h.exists_expr?
  simp [he]

/-- What a tree stands for does not change: only the values of the parts of attributes count, and
these are known. -/
theorem expr?_later (later : ∀ name v, lookup name = some v → lookup' name = some v)
    (h : t.Lowers lookup) : t.expr? lookup' = t.expr? lookup := by
  induction t with
  | colours mask a b c d iha ihb ihc ihd =>
    obtain ⟨⟨a_ok, a_part⟩, ⟨b_ok, b_part⟩, ⟨c_ok, c_part⟩, d_ok, d_part⟩ := h
    have same_a := a_part.1.field_later later (iha a_ok)
    have same_b := b_part.1.field_later later (ihb b_ok)
    have same_c := c_part.1.field_later later (ihc c_ok)
    have same_d := d_part.1.field_later later (ihd d_ok)
    simp only [field] at same_a same_b same_c same_d
    simp only [expr?, same_a, same_b, same_c, same_d]
  | complement e ih => simp only [expr?, ih h]
  | binary op a b iha ihb => simp only [expr?, iha h.1.1, ihb h.1.2]
  | _ => rfl

/-- There is still code for what is made of constants. -/
theorem Lowers.later (later : ∀ name v, lookup name = some v → lookup' name = some v)
    (h : t.Lowers lookup) (constant : (t.expr? lookup).isSome) : t.Lowers lookup' := by
  induction t with
  | number | constant => trivial
  | colours mask a b c d iha ihb ihc ihd =>
    have part {t : Tree} {greatest : UInt16} (ih : t.Lowers lookup → (t.expr? lookup).isSome →
        t.Lowers lookup') (h : t.Lowers lookup ∧ t.IsPart lookup greatest) :
        t.Lowers lookup' ∧ t.IsPart lookup' greatest := by
      obtain ⟨ok, known, le⟩ := h
      have same := expr?_later later ok
      exact ⟨ih ok known.isSome, known.later later same, by rwa [known.field_later later same]⟩
    exact ⟨part iha h.1, part ihb h.2.1, part ihc h.2.2.1, part ihd h.2.2.2⟩
  | complement e ih => exact ih h (by simpa [expr?] using constant)
  | binary op a b iha ihb =>
    have same := expr?_later later h
    obtain ⟨e, he⟩ := Option.isSome_iff_exists.mp constant
    obtain ⟨o, ho, he⟩ := Option.bind_eq_some_iff.mp he
    obtain ⟨x, hx, he⟩ := Option.bind_eq_some_iff.mp he
    obtain ⟨y, hy, he⟩ := Option.bind_eq_some_iff.mp he
    exact ⟨⟨iha h.1.1 (by simp [hx]), ihb h.1.2 (by simp [hy])⟩, .inl (by rwa [same])⟩
  | _ => simp [expr?] at constant

/-- What has to be known where it is written. -/
theorem KnownByte.lowers_later (later : ∀ name v, lookup name = some v → lookup' name = some v)
    (h : t.Lowers lookup ∧ t.KnownByte lookup) : t.Lowers lookup' ∧ t.KnownByte lookup' :=
  ⟨h.1.later later h.2.isSome, h.2.later later (expr?_later later h.1)⟩

theorem pushable_of_expr?_none (h : t.expr? lookup = none) : t.Pushable lookup := by
  intro e he
  rw [h] at he
  contradiction

end Later

/-! ## Code in memory -/

/-- The run computes the tree: there is code for the tree when all names are known, and the run is
this code with the bytes of the operands in place of the operands. -/
structure InMemory (c : Context) (t : Tree) (run : List Decoded) : Prop where
  lowers : t.Lowers c.symbols.value?
  pushable : t.Pushable c.symbols.value?
  resolved : List.Forall₂ c.Resolves (t.code c.symbols.value?) run

section InMemory

variable {c : Context} {lookup : String → Option Int64} {t a b : Tree} {run : List Decoded}

/-- An operand is the byte of the constant, no matter when it was computed. -/
theorem resolves_constantOperand {op : Opcode} {e : Expr} {d : Decoded}
    (later : ∀ name v, lookup name = some v → c.symbols.value? name = some v)
    (one : op.operands = [.byte])
    (pushable : (∃ v, e.eval lookup = .ok v ∧ IsByte v) ∨
      ∃ name, e.eval lookup = .error (.undefined name))
    (h : c.Resolves (.code op [constantOperand lookup e]) d) :
    (∃ v, e.eval c.symbols.value? = .ok v ∧ IsByte v) ∧
      c.Resolves (.code op [constantOperand c.symbols.value? e]) d := by
  rcases pushable with ⟨v, value, byte⟩ | ⟨name, missing⟩
  · have value' := eval_later later value
    refine ⟨⟨v, value', byte⟩, ?_⟩
    rw [constantOperand, value] at h
    rwa [constantOperand, value']
  · rw [constantOperand, missing] at h
    obtain ⟨y, rfl, becomes⟩ := h.becomes one
    cases becomes with
    | @constant _ _ v byte value eq =>
      have lt := byte.toNat_lt
      have same : v.toInt.toNat.toUInt16.toUInt8 = byte := by
        apply UInt8.toNat.inj
        rw [eq, UInt16.toNat_toUInt8, Int.toNat_natCast, Memory.toNat_toUInt16 (by omega)]
        omega
      refine ⟨⟨v, value, by omega, by omega⟩, .code (by simp [one]) ?_⟩
      rw [one, constantOperand, value]
      exact .cons (same ▸ .literal _ (.inl rfl)) .nil

/-- A constant is in memory by its value. -/
theorem inMemory_of_constant {e : Expr} (he : t.expr? lookup = some e)
    (later : ∀ name v, lookup name = some v → c.symbols.value? name = some v)
    (lowers : t.Lowers lookup) (pushable : t.Pushable lookup)
    (resolved : List.Forall₂ c.Resolves (t.code lookup) run) : t.InMemory c run := by
  have he' : t.expr? c.symbols.value? = some e := by rw [expr?_later later lowers, he]
  rw [code_of_expr? he] at resolved
  obtain ⟨d, rfl, here⟩ := singleton_of_forall₂ resolved
  obtain ⟨value, here⟩ := resolves_constantOperand later rfl (pushable e he) here
  refine ⟨lowers.later later (by simp [he]), fun e' same => ?_, ?_⟩
  · rw [he'] at same
    cases same
    exact .inl value
  · rw [code_of_expr? he']
    exact .cons here .nil

/-- Code that computes two values one after the other. -/
theorem inMemory_of_pair {ops : List Instruction}
    (ha : ∀ {run}, List.Forall₂ c.Resolves (a.code lookup) run → a.InMemory c run)
    (hb : ∀ {run}, List.Forall₂ c.Resolves (b.code lookup) run → b.InMemory c run)
    (resolved : List.Forall₂ c.Resolves (a.code lookup ++ b.code lookup ++ ops) run) :
    (a.Lowers c.symbols.value? ∧ a.Pushable c.symbols.value?) ∧
      (b.Lowers c.symbols.value? ∧ b.Pushable c.symbols.value?) ∧
      List.Forall₂ c.Resolves (a.code c.symbols.value? ++ b.code c.symbols.value? ++ ops) run := by
  obtain ⟨both, last, rfl, operands, operator⟩ := split_of_forall₂ resolved
  obtain ⟨first, second, rfl, lhs, rhs⟩ := split_of_forall₂ operands
  have lhs := ha lhs
  have rhs := hb rhs
  exact ⟨⟨lhs.lowers, lhs.pushable⟩, ⟨rhs.lowers, rhs.pushable⟩,
    List.rel_append (List.rel_append lhs.resolved rhs.resolved) operator⟩

/-- Code that computes one value. -/
theorem inMemory_of_single {ops : List Instruction}
    (h : ∀ {run}, List.Forall₂ c.Resolves (t.code lookup) run → t.InMemory c run)
    (resolved : List.Forall₂ c.Resolves (t.code lookup ++ ops) run) :
    (t.Lowers c.symbols.value? ∧ t.Pushable c.symbols.value?) ∧
      List.Forall₂ c.Resolves (t.code c.symbols.value? ++ ops) run := by
  obtain ⟨first, last, rfl, operand, operator⟩ := split_of_forall₂ resolved
  have operand := h operand
  exact ⟨⟨operand.lowers, operand.pushable⟩, List.rel_append operand.resolved operator⟩

theorem inMemory_limited {f : Limited}
    (later : ∀ name v, lookup name = some v → c.symbols.value? name = some v)
    (lowers : (limited f t).Lowers lookup)
    (resolved : List.Forall₂ c.Resolves ((limited f t).code lookup) run) :
    (limited f t).InMemory c run := by
  obtain ⟨ok, constant, fits⟩ := lowers
  obtain ⟨e, he⟩ := Option.isSome_iff_exists.mp constant
  have same : t.expr? c.symbols.value? = some e := by rw [expr?_later later ok, he]
  rw [code, limitOperands, he] at resolved
  obtain ⟨d, rfl, here⟩ := singleton_of_forall₂ resolved
  obtain ⟨value, here⟩ := resolves_constantOperand later (by cases f <;> rfl) (fits e he) here
  refine ⟨⟨ok.later later constant, by simp [same], fun e' again => ?_⟩,
    pushable_of_expr?_none rfl, ?_⟩
  · rw [same] at again
    cases again
    exact .inl value
  · rw [code, limitOperands, same]
    exact .cons here .nil

/-- The bytes of the code that was made with the constants known then are those of the code with all
names known. -/
theorem inMemory_of_code
    (later : ∀ name v, lookup name = some v → c.symbols.value? name = some v)
    (lowers : t.Lowers lookup) (pushable : t.Pushable lookup)
    (resolved : List.Forall₂ c.Resolves (t.code lookup) run) : t.InMemory c run := by
  induction t generalizing run with
  | number | constant | colours => exact inMemory_of_constant rfl later lowers pushable resolved
  | reference | query => exact ⟨trivial, pushable_of_expr?_none rfl, resolved⟩
  | limited f e => exact inMemory_limited later lowers resolved
  | displaced access base index =>
    refine ⟨KnownByte.lowers_later later lowers, pushable_of_expr?_none rfl, ?_⟩
    obtain ⟨ok, v, value, -⟩ := lowers
    rw [code, displace, known?_later later (expr?_later later ok) value]
    rwa [code, displace, value] at resolved
  | element array index =>
    obtain ⟨ok, constant⟩ := lowers
    have same := expr?_later later ok
    refine ⟨⟨ok.later later constant, by rwa [same]⟩, pushable_of_expr?_none rfl, ?_⟩
    rw [code, elementOperands, same]
    exact resolved
  | between low high =>
    obtain ⟨low_ok, high_ok, lt⟩ := lowers
    have same_low := low_ok.2.field_later later (expr?_later later low_ok.1)
    have same_high := high_ok.2.field_later later (expr?_later later high_ok.1)
    refine ⟨⟨KnownByte.lowers_later later low_ok, KnownByte.lowers_later later high_ok,
      by rwa [same_low, same_high]⟩, pushable_of_expr?_none rfl, ?_⟩
    rw [code, same_low, same_high]
    exact resolved
  | indirect e ih | negate e ih =>
    obtain ⟨ok, resolved⟩ := inMemory_of_single (ih lowers.1 lowers.2) resolved
    exact ⟨ok, pushable_of_expr?_none rfl, resolved⟩
  | pairing _ a b iha ihb | compare _ a b iha ihb =>
    obtain ⟨first, second, resolved⟩ :=
      inMemory_of_pair (iha lowers.1.1 lowers.1.2) (ihb lowers.2.1 lowers.2.2) resolved
    exact ⟨⟨first, second⟩, pushable_of_expr?_none rfl, resolved⟩
  | complement e ih =>
    cases he : (complement e).expr? lookup with
    | some => exact inMemory_of_constant he later lowers pushable resolved
    | none =>
      have none' : (complement e).expr? c.symbols.value? = none := by
        rw [expr?_later later lowers, he]
      have inner : e.expr? lookup = none := by simpa [expr?] using he
      rw [code, he] at resolved
      obtain ⟨ok, resolved⟩ :=
        inMemory_of_single (ih lowers (pushable_of_expr?_none inner)) resolved
      refine ⟨ok.1, pushable_of_expr?_none none', ?_⟩
      rw [code, none']
      exact resolved
  | binary op a b iha ihb =>
    cases he : (binary op a b).expr? lookup with
    | some => exact inMemory_of_constant he later lowers pushable resolved
    | none =>
      have none' : (binary op a b).expr? c.symbols.value? = none := by
        rw [expr?_later later lowers, he]
      obtain ⟨⟨ok_a, ok_b⟩, constant | ⟨instruction, push_a, push_b⟩⟩ := lowers
      · simp [he] at constant
      rw [code, he] at resolved
      obtain ⟨first, second, resolved⟩ :=
        inMemory_of_pair (iha ok_a push_a) (ihb ok_b push_b) resolved
      refine ⟨⟨⟨first.1, second.1⟩, .inr ⟨instruction, first.2, second.2⟩⟩,
        pushable_of_expr?_none none', ?_⟩
      rw [code, none']
      exact resolved

/-- A constant is the byte of its value. -/
theorem InMemory.eq_of_eval (h : t.InMemory c run) {e : Expr} {v : Int64}
    (he : t.expr? c.symbols.value? = some e) (value : e.eval c.symbols.value? = .ok v) :
    run = [.code .PUSH_D [[v.toInt.toNat.toUInt16.toUInt8]]] := by
  have resolved := h.resolved
  rw [code_of_expr? he, constantOperand, value] at resolved
  obtain ⟨d, rfl, here⟩ := singleton_of_forall₂ resolved
  obtain ⟨y, rfl, becomes⟩ := here.becomes rfl
  cases becomes
  rfl

/-- A variable is its number. -/
theorem InMemory.eq_of_counts {access : Access} {base : Located VariableBase} {number : UInt8}
    (h : (reference access base).InMemory c run) (counts : c.Counts base.value number) :
    run = [.code access.opcode [[number]]] := by
  obtain ⟨d, rfl, here⟩ := singleton_of_forall₂ h.resolved
  obtain ⟨shape, one⟩ : ∃ shape, access.opcode.operands = [shape] := by
    cases access <;> exact ⟨_, rfl⟩
  obtain ⟨y, rfl, becomes⟩ := here.becomes one
  cases becomes with
  | @numbered _ _ number' b _ counts' eq =>
    have same : number' = number := Except.ok.inj
      ((Context.baseSlot_eq_ok.mpr counts').symm.trans (Context.baseSlot_eq_ok.mpr counts))
    subst same
    rw [UInt8.toNat.inj (eq.trans (Nat.add_zero _))]

end InMemory

end Tree

end Grammar

end Gamebook
