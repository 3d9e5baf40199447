import Mathlib.Logic.Relation
import Gamebook.Proofs.Bytecode.Fusion
import Gamebook.Proofs.Bytecode.Scoped

/-!
# The depth of the stack

How deep the stack is behind an instruction follows from how deep it was before. `stackSafe` goes
through code from the front and makes sure that no instruction takes more than there is, and that
nothing is on the stack at labels, texts and arrays, behind jumps and at the end. Balanced code
passes (`Balanced.stackSafe`), and fusing keeps it so (`stackSafe_optimize`).

Going through code from the front is not how it runs. But wherever control can come from, it comes
with nothing on the stack unless it comes from the instruction before, so in code that passes the
stack is as deep on every path as it is from the front (`depthAt_of_reaches`).
-/

namespace Gamebook

/-- Whether the operation may go on elsewhere than behind itself: jumps, calls and returns, menus,
whose options are jumps, and the end. -/
def Opcode.isJump : Opcode → Bool
  | .GOTO | .GOSUB | .RETURN | .IF_GOTO | .IF_N_GOTO | .OPTION | .CHOOSE | .CHOOSE_W | .END => true
  | _ => false

namespace Instruction

/-- The depth of the stack behind the instruction, if it does not take more than there is. -/
def depth? (d : Nat) : Instruction → Option Nat
  | .code op _ => if op.pops ≤ d then some (d - op.pops + op.pushes) else none
  | _ => some d

/-- Whether the instruction is an operation, and not a label, a text or an array. -/
def isOperation : Instruction → Bool
  | .code .. => true
  | _ => false

/-- Whether control may go on elsewhere than behind the instruction. -/
def isJump : Instruction → Bool
  | .code op _ => op.isJump
  | _ => false

end Instruction

/-- Whether code can be gone through from depth `d` on: no instruction takes more than there is, and
the stack is empty at whatever is no operation, behind jumps and at the end. -/
def stackSafe : Nat → List Instruction → Bool
  | d, [] => d == 0
  | d, i :: code =>
    (i.isOperation || d == 0) &&
      match i.depth? d with
      | none => false
      | some d' => (!i.isJump || d' == 0) && stackSafe d' code

/-- The depth of the stack in front of the instruction with number `n`, counted from the front. -/
def depthAt (code : List Instruction) (n : Nat) : Option Nat :=
  (code.take n).foldlM Instruction.depth? 0

variable {σ : Scope} {d d' n : Nat} {i : Instruction} {code xs ys : List Instruction}

/-- An operation takes what it takes and leaves what it leaves. -/
theorem depth?_code_eq_some {op : Opcode} {operands : List Operand} :
    (Instruction.code op operands).depth? d = some d' ↔
      op.pops ≤ d ∧ d' + op.pops = d + op.pushes := by
  simp only [Instruction.depth?]
  split
  · rw [Option.some.injEq]
    omega
  · simp only [reduceCtorEq, false_iff]
    omega

theorem stackSafe_cons : stackSafe d (i :: code) = true ↔
    (i.isOperation = false → d = 0) ∧
      ∃ d', i.depth? d = some d' ∧ (i.isJump = true → d' = 0) ∧ stackSafe d' code = true := by
  rw [stackSafe]
  cases i.depth? d with
  | none => simp
  | some d' => cases i.isOperation <;> cases i.isJump <;> simp

/-- An operation that jumps nowhere. -/
theorem stackSafe_code {op : Opcode} {operands : List Operand} (jump : op.isJump = false)
    (pops : op.pops ≤ d) (h : stackSafe (d - op.pops + op.pushes) code = true) :
    stackSafe d (.code op operands :: code) = true :=
  stackSafe_cons.mpr ⟨by simp [Instruction.isOperation], _, if_pos pops,
    by simp [Instruction.isJump, jump], h⟩

theorem stackSafe_append (hx : stackSafe d xs = true) (hy : stackSafe 0 ys = true) :
    stackSafe d (xs ++ ys) = true := by
  induction xs generalizing d with
  | nil =>
    obtain rfl : d = 0 := by simpa [stackSafe] using hx
    exact hy
  | cons i xs ih =>
    obtain ⟨empty, d', hd', jump, rest⟩ := stackSafe_cons.mp hx
    exact stackSafe_cons.mpr ⟨empty, d', hd', jump, ih rest⟩

/-! ## Balanced code -/

/-- What leaves something on the stack jumps nowhere. -/
theorem Opcode.isJump_of_pushes {op : Opcode} (h : op.pushes = 1) : op.isJump = false := by
  cases op <;> first | rfl | contradiction

/-- What pushes values can stand wherever as many more are wanted. -/
theorem Pushes.stackSafe_append (h : Pushes σ n xs) (rest : stackSafe (d + n) ys = true) :
    stackSafe d (xs ++ ys) = true := by
  induction h generalizing ys with
  | nil => exact rest
  | @compute n op operands code _ pushes _ ih =>
    rw [List.append_assoc]
    refine ih (stackSafe_code (Opcode.isJump_of_pushes pushes) (by omega) ?_)
    rwa [pushes, ← Nat.add_assoc, Nat.add_sub_cancel, Nat.add_assoc]

theorem Balanced.stackSafe (h : Balanced σ code) : stackSafe 0 code = true := by
  induction h with
  | nil => rfl
  | append _ _ ihx ihy => exact stackSafe_append ihx ihy
  | label name => rfl
  | text bytes => rfl
  | array name => rfl
  | @act op operands code pushed acts _ =>
    refine pushed.stackSafe_append (stackSafe_cons.mpr ⟨by simp [Instruction.isOperation], 0, ?_⟩)
    simp [Instruction.depth?, Opcode.pushes_of_acts acts, Gamebook.stackSafe]

/-! ## Fusing -/

theorem direct?_eq_some {pop op : Opcode} (h : Fusion.direct? pop = some op) :
    (pop.pops = 1 ∧ pop.pushes = 0) ∧ op.pops = 0 ∧ op.pushes = 0 ∧ op.isJump = false := by
  unfold Fusion.direct? at h
  split at h <;> simp only [Option.some.injEq, reduceCtorEq] at h <;> exact h ▸ by decide

/-- Two instructions that are fused and the one they become lead to the same depth. -/
theorem depth?_of_fuses {j k : Instruction} (h : Fusion.Fuses i j k) {d₁ : Nat}
    (hi : i.depth? d = some d₁) (hj : j.depth? d₁ = some d') : k.depth? d = some d' := by
  cases h with
  | @direct pop op h values targets =>
    obtain ⟨⟨pops, pushes⟩, pops', pushes', -⟩ := direct?_eq_some h
    rw [depth?_code_eq_some] at hi hj ⊢
    simp only [Opcode.pops, Opcode.pushes] at hi
    omega
  | _ =>
    rw [depth?_code_eq_some] at hi hj ⊢
    simp only [Opcode.pops, Opcode.pushes] at hi hj ⊢
    omega

/-- What two instructions are fused to is a jump only if the second one is. -/
theorem isJump_of_fuses {j k : Instruction} (h : Fusion.Fuses i j k) (jump : k.isJump = true) :
    j.isJump = true := by
  cases h with
  | negatedJump values targets => rfl
  | direct h values targets =>
    obtain ⟨-, -, -, other⟩ := direct?_eq_some h
    exact absurd jump (by simp [Instruction.isJump, other])
  | _ => contradiction

theorem isOperation_of_fuses {j k : Instruction} (h : Fusion.Fuses i j k) :
    k.isOperation = true := by
  cases h <;> rfl

theorem stackSafe_fusePairs (safe : stackSafe d code = true) :
    stackSafe d (Fusion.fusePairs code) = true := by
  fun_induction Fusion.fusePairs code generalizing d with
  | case1 => exact safe
  | case2 i => exact safe
  | case3 i j rest k hk ih =>
    have fuses := Fusion.fuses_of_fuse hk
    obtain ⟨-, d₁, hi, -, hrest⟩ := stackSafe_cons.mp safe
    obtain ⟨-, d', hj, jump, hrest⟩ := stackSafe_cons.mp hrest
    exact stackSafe_cons.mpr ⟨by simp [isOperation_of_fuses fuses], d', depth?_of_fuses fuses hi hj,
      fun h => jump (isJump_of_fuses fuses h), ih hrest⟩
  | case4 i j rest _ ih =>
    obtain ⟨empty, d', hd', jump, hrest⟩ := stackSafe_cons.mp safe
    exact stackSafe_cons.mpr ⟨empty, d', hd', jump, ih hrest⟩

theorem stackSafe_optimize (safe : stackSafe 0 code = true) :
    stackSafe 0 (Fusion.optimize code) = true := by
  unfold Fusion.optimize Fusion.withEnd
  split
  · exact stackSafe_fusePairs safe
  · exact stackSafe_append (stackSafe_fusePairs safe) rfl

/-! ## Paths -/

/-- Control can go on from the instruction with number `m` to the one with number `n`: the one
behind it, a label, or whatever is behind a jump, to which calls and menus come back. That a certain
jump goes to a certain label, or never falls through, does not matter here. -/
inductive Flows (code : List Instruction) : Nat → Nat → Prop
  | next (m : Nat) : Flows code m (m + 1)
  | jump {m n : Nat} {i : Instruction} {name : String} : code[m]? = some i → i.isJump = true →
    code[n]? = some (.label name) → Flows code m n
  | back {m n : Nat} {i j : Instruction} : code[m]? = some i → i.isJump = true →
    code[n]? = some j → j.isJump = true → Flows code m (n + 1)

/-- One instruction is run, and control goes on. -/
def StackStep (code : List Instruction) (a b : Nat × Nat) : Prop :=
  ∃ i, code[a.1]? = some i ∧ i.depth? a.2 = some b.2 ∧ Flows code a.1 b.1

/-- There is a path from the first instruction, with nothing on the stack, to the instruction with
number `n` that leaves the stack with depth `d`. -/
def Reaches (code : List Instruction) (n d : Nat) : Prop :=
  Relation.ReflTransGen (StackStep code) (0, 0) (n, d)

theorem depthAt_succ (hi : code[n]? = some i) :
    depthAt code (n + 1) = (depthAt code n).bind (i.depth? ·) := by
  rw [depthAt, List.take_add_one, hi, List.foldlM_append]
  simp [depthAt]

/-- The rest of code that passes, from any place on. -/
theorem exists_depthAt (safe : stackSafe 0 code = true) (h : n ≤ code.length) :
    ∃ d, depthAt code n = some d ∧ stackSafe d (code.drop n) = true := by
  induction n with
  | zero => exact ⟨0, rfl, safe⟩
  | succ n ih =>
    obtain ⟨d, hd, rest⟩ := ih (Nat.le_of_succ_le h)
    have hi : code[n]? = some code[n] := List.getElem?_eq_getElem h
    rw [List.drop_eq_getElem_cons h] at rest
    obtain ⟨-, d', hd', -, rest⟩ := stackSafe_cons.mp rest
    exact ⟨d', by rw [depthAt_succ hi, hd, Option.bind_some, hd'], rest⟩

/-- What code that passes says of one of its instructions. -/
theorem depthAt_cases (safe : stackSafe 0 code = true) (hi : code[n]? = some i) :
    ∃ d d', depthAt code n = some d ∧ i.depth? d = some d' ∧ (i.isOperation = false → d = 0) ∧
      (i.isJump = true → d' = 0) := by
  obtain ⟨lt, rfl⟩ := List.getElem?_eq_some_iff.mp hi
  obtain ⟨d, hd, rest⟩ := exists_depthAt safe (Nat.le_of_lt lt)
  rw [List.drop_eq_getElem_cons lt] at rest
  obtain ⟨empty, d', hd', jump, -⟩ := stackSafe_cons.mp rest
  exact ⟨d, d', hd, hd', empty, jump⟩

theorem depthAt_behind_jump (safe : stackSafe 0 code = true) (hi : code[n]? = some i)
    (jump : i.isJump = true) : depthAt code (n + 1) = some 0 := by
  obtain ⟨d, d', hd, hd', -, empty⟩ := depthAt_cases safe hi
  rw [depthAt_succ hi, hd, Option.bind_some, hd', empty jump]

/-- On every path, the stack is as deep as it is from the front. -/
theorem depthAt_of_reaches (safe : stackSafe 0 code = true) (h : Reaches code n d) :
    depthAt code n = some d := by
  suffices ∀ b, Relation.ReflTransGen (StackStep code) (0, 0) b → depthAt code b.1 = some b.2 from
    this (n, d) h
  intro b path
  induction path with
  | refl => rfl
  | @tail a b _ step ih =>
    obtain ⟨i, hi, hd, flow⟩ := step
    obtain ⟨m, d⟩ := a
    obtain ⟨n, d'⟩ := b
    cases flow with
    | next =>
      rw [depthAt_succ hi, ih]
      exact hd
    | jump hi' jump label =>
      -- a jump leaves nothing on the stack, and a label wants nothing there
      obtain rfl := Option.some.inj (hi.symm.trans hi')
      obtain ⟨d₀, -, hlabel, -, empty, -⟩ := depthAt_cases safe label
      rw [empty rfl] at hlabel
      rw [hlabel, ← depthAt_behind_jump safe hi jump, depthAt_succ hi, ih]
      exact hd
    | back hi' jump hj jump' =>
      obtain rfl := Option.some.inj (hi.symm.trans hi')
      rw [depthAt_behind_jump safe hj jump', ← depthAt_behind_jump safe hi jump,
        depthAt_succ hi, ih]
      exact hd

/-- However control goes, no instruction takes more from the stack than there is, the stack is the
same depth whenever control comes to an instruction, and it is empty at labels, texts and arrays,
behind jumps and at the end. -/
structure StackBalanced (code : List Instruction) : Prop where
  enough : ∀ n d i, Reaches code n d → code[n]? = some i → ∃ d', i.depth? d = some d'
  unique : ∀ n d d', Reaches code n d → Reaches code n d' → d = d'
  empty_between : ∀ n d i, Reaches code n d → code[n]? = some i → i.isOperation = false → d = 0
  empty_behind : ∀ n d d' i, Reaches code n d → code[n]? = some i → i.isJump = true →
    i.depth? d = some d' → d' = 0
  empty_at_end : ∀ d, Reaches code code.length d → d = 0

/-- What code that passes says of an instruction that control comes to. -/
theorem reaches_cases (safe : stackSafe 0 code = true) (reach : Reaches code n d)
    (hi : code[n]? = some i) :
    ∃ d', i.depth? d = some d' ∧ (i.isOperation = false → d = 0) ∧ (i.isJump = true → d' = 0) := by
  obtain ⟨d₀, d', hd₀, cases⟩ := depthAt_cases safe hi
  obtain rfl := Option.some.inj ((depthAt_of_reaches safe reach).symm.trans hd₀)
  exact ⟨d', cases⟩

theorem stackBalanced_of_stackSafe (safe : stackSafe 0 code = true) : StackBalanced code where
  enough n d i reach hi := (reaches_cases safe reach hi).imp fun _ h => h.1
  unique n d d' reach reach' :=
    Option.some.inj ((depthAt_of_reaches safe reach).symm.trans (depthAt_of_reaches safe reach'))
  empty_between n d i reach hi := by
    obtain ⟨-, -, empty, -⟩ := reaches_cases safe reach hi
    exact empty
  empty_behind n d d' i reach hi jump hd' := by
    obtain ⟨d₀, hd₀, -, empty⟩ := reaches_cases safe reach hi
    exact Option.some.inj (hd'.symm.trans hd₀) ▸ empty jump
  empty_at_end d reach := by
    obtain ⟨d₀, hd₀, rest⟩ := exists_depthAt safe (Nat.le_refl code.length)
    obtain rfl := Option.some.inj ((depthAt_of_reaches safe reach).symm.trans hd₀)
    simpa [stackSafe] using rest

end Gamebook
