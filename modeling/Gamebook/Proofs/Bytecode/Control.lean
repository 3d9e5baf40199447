import Gamebook.Proofs.Bytecode.Stack
import Gamebook.Proofs.Memory.Spread

/-!
# Control flow

What instructions do is not modelled here. A `Machine` gives every instruction some meaning on
states of some kind, and says how a condition is taken from the stack. On top of that there are two
ways to run a program:

* `Machine.Steps` goes through a flat list of instructions, with jumps to labels, and
  `Machine.RunsOff` says that such a run comes to the end of the list;
* `Machine.Ends` runs a `Flow`, which has branches and loops.

`Lowered p c` says that the instructions `c` are the flow `p` with jumps for its branches and loops.
If all labels of a program are different, such code does what its flow does, no less
(`steps_of_ends`) and no more (`ends_of_steps`).
-/

namespace Gamebook

/-- Whether control goes on behind the instruction, whatever the state. An option of a menu is only
noted; the jump comes with the choice. -/
def Instruction.isStraight : Instruction → Bool
  | .code op _ => !op.isJump || op == .OPTION
  | _ => true

/-- Control passes from one instruction to the next. -/
def Straight (code : List Instruction) : Prop := ∀ i ∈ code, i.isStraight = true

/-- No value is computed by way of a jump. -/
theorem Pushes.straight {σ : Scope} {n : Nat} {code : List Instruction} (h : Pushes σ n code) :
    Straight code := by
  induction h with
  | nil => exact List.forall_mem_nil _
  | compute _ pushes _ ih =>
    refine List.forall_mem_append.mpr ⟨ih, List.forall_mem_singleton.mpr ?_⟩
    simp [Instruction.isStraight, Opcode.isJump_of_pushes pushes]

/-- What instructions do to states of some kind. -/
structure Machine (S : Type) where
  act : Instruction → S → S
  /-- Takes a condition from the stack. -/
  pop : S → Bool × S

/-- A program with branches and loops over straight code. -/
inductive Flow where
  | skip
  | straight (code : List Instruction)
  | seq (first second : Flow)
  /-- `IF test THEN first ELSE second ENDIF` -/
  | branch (test : List Instruction) (first second : Flow)
  /-- `WHILE (test) body WEND` -/
  | loop (test : List Instruction) (body : Flow)
  /-- `WHILE () body WEND` -/
  | forever (body : Flow)
  /-- `DO body UNTIL test` -/
  | repeatUntil (body : Flow) (test : List Instruction)

namespace Machine

variable {S : Type} (m : Machine S)

/-- Does what the instruction says. There is nothing to do at a label. -/
def exec (s : S) : Instruction → S
  | .label _ => s
  | i => m.act i s

/-- Does one instruction after the other. -/
def execs (code : List Instruction) (s : S) : S := code.foldl m.exec s

/-- Computes a condition, and takes it from the stack. -/
def condition (code : List Instruction) (s : S) : Bool × S := m.pop (m.execs code s)

/-! ## Flat code -/

/-- Where control goes from the instruction with number `n`, and in which state. -/
def next (code : List Instruction) (n : Nat) (s : S) : Instruction → Nat × S
  | .code .GOTO [.label l] => (code.idxOf (.label l), s)
  | .code .IF_N_GOTO [.label l] =>
    (if (m.pop s).1 then n + 1 else code.idxOf (.label l), (m.pop s).2)
  | i => (n + 1, m.exec s i)

/-- From the first number and state, control comes to the second ones in `k` steps. -/
inductive Steps (code : List Instruction) : Nat → Nat × S → Nat × S → Prop
  | refl (x : Nat × S) : Steps code 0 x x
  | step {k n : Nat} {s : S} {i : Instruction} {y : Nat × S} : code[n]? = some i →
    Steps code k (m.next code n s i) y → Steps code (k + 1) (n, s) y

/-- Run from the first instruction, the code runs off the end in the second state. -/
def RunsOff (code : List Instruction) (s t : S) : Prop :=
  ∃ k, m.Steps code k (0, s) (code.length, t)

/-! ## Flows -/

/-- The flow ends in the second state when it is run from the first. There is no way for `forever`
to end. -/
inductive Ends : Flow → S → S → Prop
  | skip (s : S) : Ends .skip s s
  | straight (code : List Instruction) (s : S) : Ends (.straight code) s (m.execs code s)
  | seq {p q : Flow} {s s' s'' : S} : Ends p s s' → Ends q s' s'' → Ends (.seq p q) s s''
  | branchTrue {test : List Instruction} {p q : Flow} {s s' s'' : S} :
    m.condition test s = (true, s') → Ends p s' s'' → Ends (.branch test p q) s s''
  | branchFalse {test : List Instruction} {p q : Flow} {s s' s'' : S} :
    m.condition test s = (false, s') → Ends q s' s'' → Ends (.branch test p q) s s''
  | loopTrue {test : List Instruction} {p : Flow} {s s₁ s₂ s' : S} :
    m.condition test s = (true, s₁) → Ends p s₁ s₂ → Ends (.loop test p) s₂ s' →
    Ends (.loop test p) s s'
  | loopFalse {test : List Instruction} {p : Flow} {s s' : S} :
    m.condition test s = (false, s') → Ends (.loop test p) s s'
  | untilTrue {test : List Instruction} {p : Flow} {s s₁ s' : S} :
    Ends p s s₁ → m.condition test s₁ = (true, s') → Ends (.repeatUntil p test) s s'
  | untilFalse {test : List Instruction} {p : Flow} {s s₁ s₂ s' : S} :
    Ends p s s₁ → m.condition test s₁ = (false, s₂) → Ends (.repeatUntil p test) s₂ s' →
    Ends (.repeatUntil p test) s s'

end Machine

/-- The instructions are the flow with jumps for its branches and loops. Nothing has to be jumped
over where the second part of a branch has no code. -/
inductive Lowered : Flow → List Instruction → Prop
  | skip : Lowered .skip []
  | straight {code : List Instruction} : Straight code → Lowered (.straight code) code
  | seq {p q : Flow} {c d : List Instruction} : Lowered p c → Lowered q d →
    Lowered (.seq p q) (c ++ d)
  | branch {test : List Instruction} {p q : Flow} {c : List Instruction} (otherwise : String) :
    Straight test → Lowered p c → Lowered q [] →
    Lowered (.branch test p q)
      (test ++ .jump .IF_N_GOTO otherwise :: (c ++ [.label otherwise]))
  | branchElse {test : List Instruction} {p q : Flow} {c d : List Instruction}
    (otherwise done : String) : Straight test → Lowered p c → Lowered q d →
    Lowered (.branch test p q)
      (test ++ .jump .IF_N_GOTO otherwise ::
        (c ++ .jump .GOTO done :: .label otherwise :: (d ++ [.label done])))
  | loop {test : List Instruction} {p : Flow} {c : List Instruction} (start done : String) :
    Straight test → Lowered p c →
    Lowered (.loop test p)
      (.label start :: (test ++ .jump .IF_N_GOTO done ::
        (c ++ [.jump .GOTO start, .label done])))
  | forever {p : Flow} {c : List Instruction} (start : String) : Lowered p c →
    Lowered (.forever p) (.label start :: (c ++ [.jump .GOTO start]))
  | repeatUntil {test : List Instruction} {p : Flow} {c : List Instruction} (start : String) :
    Straight test → Lowered p c →
    Lowered (.repeatUntil p test)
      (.label start :: (c ++ (test ++ [.jump .IF_N_GOTO start])))

/-! ## Parts of code -/

/-- `part` stands in `code` from the instruction with number `n` on. -/
def PartAt (code : List Instruction) (n : Nat) (part : List Instruction) : Prop :=
  ∃ before behind, code = before ++ part ++ behind ∧ before.length = n

namespace PartAt

variable {code part xs ys : List Instruction} {n : Nat} {i : Instruction} {l : String}

theorem left (h : PartAt code n (xs ++ ys)) : PartAt code n xs := by
  obtain ⟨before, behind, rfl, rfl⟩ := h
  exact ⟨before, ys ++ behind, by simp, rfl⟩

theorem right (h : PartAt code n (xs ++ ys)) : PartAt code (n + xs.length) ys := by
  obtain ⟨before, behind, rfl, rfl⟩ := h
  exact ⟨before ++ xs, behind, by simp, by simp⟩

theorem tail (h : PartAt code n (i :: xs)) : PartAt code (n + 1) xs :=
  (show PartAt code n ([i] ++ xs) from h).right

theorem head (h : PartAt code n (i :: xs)) : code[n]? = some i := by
  obtain ⟨before, behind, rfl, rfl⟩ := h
  simp

/-- A label is found where it stands, if it stands there only. -/
theorem idxOf_label (h : PartAt code n (.label l :: xs)) (nodup : (Memory.labelNames code).Nodup) :
    code.idxOf (.label l) = n := by
  obtain ⟨before, behind, rfl, rfl⟩ := h
  have absent : Instruction.label l ∉ before := by
    intro mem
    rw [List.append_assoc, Memory.labelNames, List.filterMap_append] at nodup
    refine (List.nodup_append.mp nodup).2.2 l ?_ l ?_ rfl
    · exact List.mem_filterMap.mpr ⟨_, mem, rfl⟩
    · exact List.mem_filterMap.mpr ⟨.label l, by simp, rfl⟩
  rw [List.append_assoc, List.idxOf_append_of_notMem absent]
  simp

end PartAt

namespace Machine

variable {S : Type} {m : Machine S} {code test c d : List Instruction} {p : Flow} {j k n n' : Nat}
  {s s' t : S} {x y z : Nat × S} {i : Instruction} {l : String}

/-! ## Steps -/

namespace Steps

theorem trans (h : m.Steps code j x y) (h' : m.Steps code k y z) : m.Steps code (j + k) x z := by
  induction h with
  | refl => rwa [Nat.zero_add]
  | step found _ ih =>
    rw [Nat.add_right_comm]
    exact .step found (ih h')

theorem ends_at (h : m.Steps code k x (n, s)) (place : n = n') : m.Steps code k x (n', s) :=
  place ▸ h

theorem begins_at (h : m.Steps code k (n, s) y) (place : n = n') : m.Steps code k (n', s) y :=
  place ▸ h

/-- Nothing follows the last instruction, and every other instruction leads to one place, so a run
to the end comes through all places on the way. -/
theorem split (whole : m.Steps code k x (code.length, t)) (h : m.Steps code j x y) :
    ∃ k', k = j + k' ∧ m.Steps code k' y (code.length, t) := by
  induction h generalizing k with
  | refl => exact ⟨k, (Nat.zero_add k).symm, whole⟩
  | step found _ ih =>
    cases whole with
    | refl => simp at found
    | step found' rest =>
      obtain rfl := Option.some.inj (found.symm.trans found')
      obtain ⟨k', rfl, behind⟩ := ih rest
      exact ⟨k', Nat.add_right_comm .., behind⟩

/-- Behind the last instruction nothing happens. -/
theorem eq_of_end (h : m.Steps code k (code.length, s) (n, t)) : s = t := by
  cases h with
  | refl => rfl
  | step found => simp at found

theorem single (at_ : PartAt code n (i :: c)) : m.Steps code 1 (n, s) (m.next code n s i) :=
  .step at_.head (.refl _)

theorem label (at_ : PartAt code n (.label l :: c)) (behind : n + 1 = n') :
    m.Steps code 1 (n, s) (n', s) := by
  subst behind
  exact single at_

theorem goto (nodup : (Memory.labelNames code).Nodup) (at_ : PartAt code n (.jump .GOTO l :: c))
    (target : PartAt code n' (.label l :: d)) : m.Steps code 1 (n, s) (n', s) := by
  obtain rfl := target.idxOf_label nodup
  exact single at_

end Steps

theorem next_of_isStraight (h : i.isStraight = true) : m.next code n s i = (n + 1, m.exec s i) := by
  unfold next
  split
  · simp [Instruction.isStraight, Opcode.isJump] at h
  · simp [Instruction.isStraight, Opcode.isJump] at h
  · rfl

/-- Straight code does one instruction after the other. -/
theorem Steps.straight (straight : Straight c) (at_ : PartAt code n c) :
    m.Steps code c.length (n, s) (n + c.length, m.execs c s) := by
  induction c generalizing n s with
  | nil => exact .refl _
  | cons i c ih =>
    have rest := ih (s := m.exec s i) (fun j hj => straight j (by simp [hj])) at_.tail
    rw [Nat.add_right_comm] at rest
    refine .step at_.head ?_
    rwa [next_of_isStraight (straight i (by simp))]

/-- A condition is computed and taken from the stack, and control goes on behind the jump if it
holds, and at the label if not. -/
theorem Steps.condition {b : Bool} (nodup : (Memory.labelNames code).Nodup)
    (straight : Straight test) (at_ : PartAt code n (test ++ .jump .IF_N_GOTO l :: c))
    (target : PartAt code n' (.label l :: d)) (result : m.condition test s = (b, s')) :
    m.Steps code (test.length + 1) (n, s) (bif b then n + test.length + 1 else n', s') := by
  obtain rfl := target.idxOf_label nodup
  refine (Steps.straight straight at_.left).trans (.step at_.right.head ?_)
  have pops : m.pop (m.execs test s) = (b, s') := result
  rw [Instruction.jump, next, pops, Bool.cond_eq_ite]
  exact .refl _

/-! ## Flat code does what the flow does -/

/-- **Whatever a flow does, its code does.** The induction is on the run of the flow: a loop is gone
through once and met again where it begins. -/
theorem steps_of_ends (nodup : (Memory.labelNames code).Nodup) (ends : m.Ends p s s')
    (lowered : Lowered p c) (at_ : PartAt code n c) :
    ∃ k, m.Steps code k (n, s) (n + c.length, s') := by
  induction ends generalizing c n with
  | skip s =>
    cases lowered
    exact ⟨0, .refl _⟩
  | straight _ s =>
    cases lowered with
    | straight straight => exact ⟨_, .straight straight at_⟩
  | seq _ _ ihp ihq =>
    cases lowered with
    | seq hp hq =>
      obtain ⟨j, first⟩ := ihp hp at_.left
      obtain ⟨k, second⟩ := ihq hq at_.right
      rw [List.length_append, ← Nat.add_assoc]
      exact ⟨_, first.trans second⟩
  | branchTrue result _ ih =>
    cases lowered with
    | branch otherwise straight hp hq =>
      have last := at_.right.tail.right
      obtain ⟨k, body⟩ := ih hp at_.right.tail.left
      have enter := Steps.condition nodup straight at_ last result
      exact ⟨_, (enter.trans body).trans (.label last (by simp; omega))⟩
    | branchElse otherwise done straight hp hq =>
      have jump := at_.right.tail.right
      have last := jump.tail.tail.right
      obtain ⟨k, body⟩ := ih hp at_.right.tail.left
      have enter := Steps.condition nodup straight at_ jump.tail result
      exact ⟨_, ((enter.trans body).trans (.goto nodup jump last)).trans
        (.label last (by simp; omega))⟩
  | branchFalse result _ ih =>
    cases lowered with
    | branch otherwise straight hp hq =>
      have last := at_.right.tail.right
      have skip := Steps.condition nodup straight at_ last result
      obtain ⟨k, nothing⟩ := ih hq last.tail.left
      exact ⟨_, (skip.trans (.label last rfl)).trans (nothing.ends_at (by simp; omega))⟩
    | branchElse otherwise done straight hp hq =>
      have other := at_.right.tail.right.tail
      have skip := Steps.condition nodup straight at_ other result
      obtain ⟨k, body⟩ := ih hq other.tail.left
      exact ⟨_, ((skip.trans (.label other rfl)).trans body).trans
        (.label other.tail.right (by simp; omega))⟩
  | loopTrue result _ _ ihp ih =>
    have again := ih lowered at_
    cases lowered with
    | loop start done straight hp =>
      have back := at_.tail.right.tail.right
      have enter := Steps.condition nodup straight at_.tail back.tail result
      obtain ⟨j, body⟩ := ihp hp at_.tail.right.tail.left
      obtain ⟨k, rest⟩ := again
      exact ⟨_, ((((Steps.label at_ rfl).trans enter).trans body).trans
        (.goto nodup back at_)).trans rest⟩
  | loopFalse result =>
    cases lowered with
    | loop start done straight hp =>
      have last := at_.tail.right.tail.right.tail
      have leave := Steps.condition nodup straight at_.tail last result
      exact ⟨_, ((Steps.label at_ rfl).trans leave).trans (.label last (by simp; omega))⟩
  | untilTrue _ result ih =>
    cases lowered with
    | repeatUntil start straight hp =>
      obtain ⟨k, body⟩ := ih hp at_.tail.left
      have leave := Steps.condition nodup straight at_.tail.right at_ result
      exact ⟨_, (((Steps.label at_ rfl).trans body).trans leave).ends_at (by simp; omega)⟩
  | untilFalse _ result _ ihp ih =>
    have again := ih lowered at_
    cases lowered with
    | repeatUntil start straight hp =>
      obtain ⟨j, body⟩ := ihp hp at_.tail.left
      have back := Steps.condition nodup straight at_.tail.right at_ result
      obtain ⟨k, rest⟩ := again
      exact ⟨_, (((Steps.label at_ rfl).trans body).trans back).trans rest⟩

/-- **Code does nothing that its flow does not.** The induction is on the code. A loop takes some
steps each time it is gone through, so a run that comes to an end leaves it. -/
theorem ends_of_steps (nodup : (Memory.labelNames code).Nodup) (lowered : Lowered p c)
    (at_ : PartAt code n c) (steps : m.Steps code k (n, s) (code.length, t)) :
    ∃ s' k', k' ≤ k ∧ m.Ends p s s' ∧ m.Steps code k' (n + c.length, s') (code.length, t) := by
  induction lowered generalizing k n s with
  | skip => exact ⟨s, k, Nat.le_refl k, .skip s, steps⟩
  | straight straight =>
    obtain ⟨k', rfl, behind⟩ := steps.split (.straight straight at_)
    exact ⟨_, k', Nat.le_add_left .., .straight _ s, behind⟩
  | seq hp hq ihp ihq =>
    obtain ⟨s₁, k₁, le₁, first, behind⟩ := ihp at_.left steps
    obtain ⟨s₂, k₂, le₂, second, behind⟩ := ihq at_.right behind
    rw [List.length_append, ← Nat.add_assoc]
    exact ⟨s₂, k₂, Nat.le_trans le₂ le₁, .seq first second, behind⟩
  | @branch test p q c otherwise straight hp hq ihp ihq =>
    have last := at_.right.tail.right
    rcases result : m.condition test s with ⟨b, s₁⟩
    obtain ⟨k₁, rfl, steps₁⟩ := steps.split (.condition nodup straight at_ last result)
    cases b with
    | true =>
      obtain ⟨s₂, k₂, le₂, body, steps₂⟩ := ihp at_.right.tail.left steps₁
      obtain ⟨k₃, rfl, steps₃⟩ := steps₂.split (.label last rfl)
      exact ⟨s₂, k₃, by omega, .branchTrue result body, steps₃.begins_at (by simp; omega)⟩
    | false =>
      obtain ⟨k₂, rfl, steps₂⟩ := steps₁.split (.label last rfl)
      obtain ⟨s₃, k₃, le₃, nothing, steps₃⟩ := ihq last.tail.left steps₂
      exact ⟨s₃, k₃, by omega, .branchFalse result nothing, steps₃.begins_at (by simp; omega)⟩
  | @branchElse test p q c d otherwise done straight hp hq ihp ihq =>
    have jump := at_.right.tail.right
    have last := jump.tail.tail.right
    rcases result : m.condition test s with ⟨b, s₁⟩
    obtain ⟨k₁, rfl, steps₁⟩ := steps.split (.condition nodup straight at_ jump.tail result)
    cases b with
    | true =>
      obtain ⟨s₂, k₂, le₂, body, steps₂⟩ := ihp at_.right.tail.left steps₁
      obtain ⟨k₃, rfl, steps₃⟩ := steps₂.split
        ((Steps.goto nodup jump last).trans (.label last rfl))
      exact ⟨s₂, k₃, by omega, .branchTrue result body, steps₃.begins_at (by simp; omega)⟩
    | false =>
      obtain ⟨k₂, rfl, steps₂⟩ := steps₁.split (.label jump.tail rfl)
      obtain ⟨s₃, k₃, le₃, body, steps₃⟩ := ihq jump.tail.tail.left steps₂
      obtain ⟨k₄, rfl, steps₄⟩ := steps₃.split (.label last rfl)
      exact ⟨s₃, k₄, by omega, .branchFalse result body, steps₄.begins_at (by simp; omega)⟩
  | @loop test p c start done straight hp ih =>
    have back := at_.tail.right.tail.right
    induction k using Nat.strongRecOn generalizing s with
    | ind k again =>
      rcases result : m.condition test s with ⟨b, s₁⟩
      obtain ⟨k₁, rfl, steps₁⟩ := steps.split
        ((Steps.label at_ rfl).trans (.condition nodup straight at_.tail back.tail result))
      cases b with
      | true =>
        obtain ⟨s₂, k₂, le₂, body, steps₂⟩ := ih at_.tail.right.tail.left steps₁
        obtain ⟨k₃, rfl, steps₃⟩ := steps₂.split (.goto nodup back at_)
        obtain ⟨s₄, k₄, le₄, rest, steps₄⟩ := again k₃ (by omega) steps₃
        exact ⟨s₄, k₄, by omega, .loopTrue result body rest, steps₄⟩
      | false =>
        obtain ⟨k₂, rfl, steps₂⟩ := steps₁.split (.label back.tail rfl)
        exact ⟨s₁, k₂, by omega, .loopFalse result, steps₂.begins_at (by simp; omega)⟩
  | @forever p c start hp ih =>
    have back := at_.tail.right
    -- There is no way out: every time it is met again, fewer steps are left.
    exfalso
    induction k using Nat.strongRecOn generalizing s with
    | ind k again =>
      obtain ⟨k₁, rfl, steps₁⟩ := steps.split (.label at_ rfl)
      obtain ⟨s₂, k₂, le₂, -, steps₂⟩ := ih at_.tail.left steps₁
      obtain ⟨k₃, rfl, steps₃⟩ := steps₂.split (.goto nodup back at_)
      exact again k₃ (by omega) steps₃
  | @repeatUntil test p c start straight hp ih =>
    induction k using Nat.strongRecOn generalizing s with
    | ind k again =>
      obtain ⟨k₁, rfl, steps₁⟩ := steps.split (.label at_ rfl)
      obtain ⟨s₂, k₂, le₂, body, steps₂⟩ := ih at_.tail.left steps₁
      rcases result : m.condition test s₂ with ⟨b, s₃⟩
      obtain ⟨k₃, rfl, steps₃⟩ := steps₂.split
        (.condition nodup straight at_.tail.right at_ result)
      cases b with
      | true => exact ⟨s₃, k₃, by omega, .untilTrue body result, steps₃.begins_at (by simp; omega)⟩
      | false =>
        obtain ⟨s₄, k₄, le₄, rest, steps₄⟩ := again k₃ (by omega) steps₃
        exact ⟨s₄, k₄, by omega, .untilFalse body result rest, steps₄⟩

/-- **Lowered code does what its flow does**, no less and no more. -/
theorem runsOff_iff_ends (nodup : (Memory.labelNames code).Nodup) (lowered : Lowered p code) :
    m.RunsOff code s s' ↔ m.Ends p s s' := by
  have whole : PartAt code 0 code := ⟨[], [], by simp, rfl⟩
  constructor
  · rintro ⟨k, steps⟩
    obtain ⟨t, k', -, ends, rest⟩ := ends_of_steps nodup lowered whole steps
    obtain rfl := (rest.begins_at (Nat.zero_add _)).eq_of_end
    exact ends
  · intro ends
    obtain ⟨k, steps⟩ := steps_of_ends nodup ends lowered whole
    exact ⟨k, by rwa [Nat.zero_add] at steps⟩

end Machine

end Gamebook
