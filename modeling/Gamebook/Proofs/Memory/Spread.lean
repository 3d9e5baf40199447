import Mathlib.Data.List.DropRight
import Gamebook.Memory.Layout

/-!
# How a program is spread over banks

Laying a program out cuts it into banks and leaves everything else as it was. `Spread` says so
without offsets or jumps: the instructions of the banks, read one bank after the other, are the
program, except that a text may have been cut where a bank ends.

A few facts about it are used later on. A spread of two programs one after the other comes apart
where the second one begins (`Spread.split`), an instruction of the program can be found in the
banks together with what stands before it (`Spread.locate`), and beginning a new bank anywhere
leaves a spread a spread (`Spread.insert`). There is one place only that has a given part of the
program before it (`Spread.eq_of_banks`).
-/

namespace Gamebook

/-- How many bytes operands in these forms take together. -/
def shapesSize (shapes : List OperandShape) : Nat := shapes.foldr (·.size + ·) 0

@[simp] theorem shapesSize_nil : shapesSize [] = 0 := rfl

@[simp] theorem shapesSize_cons (shape : OperandShape) (shapes : List OperandShape) :
    shapesSize (shape :: shapes) = shape.size + shapesSize shapes := rfl

theorem Opcode.size_eq (op : Opcode) : op.size = 1 + shapesSize op.operands := by
  unfold Opcode.size
  induction op.operands with
  | nil => rfl
  | cons shape shapes ih =>
    rw [List.foldr_cons, ih, shapesSize_cons]
    omega

/-- Whether the instruction is a label. -/
def Instruction.isLabel : Instruction → Bool
  | .label _ => true
  | _ => false

/-- The first instruction is what the second begins with in memory: itself, or the first part of a
text that was cut. -/
def Instruction.Begins (j i : Instruction) : Prop :=
  j = i ∨ ∃ head tail, head ≠ [] ∧ j = .text head ∧ i = .text (head ++ tail)

theorem Instruction.Begins.eq_of_ne_text {i j : Instruction} (h : j.Begins i)
    (hi : ∀ t, i ≠ .text t) : j = i := by
  rcases h with h | ⟨head, tail, -, -, e⟩
  · exact h
  · exact absurd e (hi _)

/-- The name of a label. -/
def Instruction.label? : Instruction → Option String
  | .label name => some name
  | _ => none

/-- The name of an array. -/
def Instruction.array? : Instruction → Option String
  | .array name _ => some name
  | _ => none

/-- How much an instruction counts, a text by its bytes. -/
def Instruction.weight : Instruction → Nat
  | .text bytes => max 1 bytes.length
  | _ => 1

namespace Memory

/-- The labels of a program, in order. -/
def labelNames (code : List Instruction) : List String := code.filterMap Instruction.label?

/-- The arrays of a program, in order. -/
def arrayNames (code : List Instruction) : List String := code.filterMap Instruction.array?

/-- How many bytes instructions take together. -/
def codeSize (code : List Instruction) : Nat := code.foldr (·.size + ·) 0

@[simp] theorem codeSize_nil : codeSize [] = 0 := rfl

@[simp] theorem codeSize_cons (i : Instruction) (code : List Instruction) :
    codeSize (i :: code) = i.size + codeSize code := rfl

@[simp] theorem codeSize_append (xs ys : List Instruction) :
    codeSize (xs ++ ys) = codeSize xs + codeSize ys := by
  induction xs with
  | nil => simp
  | cons i xs ih => rw [List.cons_append, codeSize_cons, codeSize_cons, ih, Nat.add_assoc]

/-- How much instructions count together. -/
def codeWeight (code : List Instruction) : Nat := code.foldr (·.weight + ·) 0

theorem codeWeight_nil : codeWeight [] = 0 := rfl

theorem codeWeight_cons (i : Instruction) (code : List Instruction) :
    codeWeight (i :: code) = i.weight + codeWeight code := rfl

theorem codeWeight_append (xs ys : List Instruction) :
    codeWeight (xs ++ ys) = codeWeight xs + codeWeight ys := by
  induction xs with
  | nil => simp [codeWeight_nil]
  | cons i xs ih => rw [List.cons_append, codeWeight_cons, codeWeight_cons, ih, Nat.add_assoc]

theorem eq_nil_of_codeWeight {code : List Instruction} (h : codeWeight code = 0) : code = [] := by
  cases code with
  | nil => rfl
  | cons i code =>
    have pos : 0 < i.weight := by
      cases i <;> simp only [Instruction.weight] <;> omega
    rw [codeWeight_cons] at h
    omega

theorem size_of_isLabel {i : Instruction} (h : i.isLabel = true) : i.size = 0 := by
  cases i <;> first | rfl | simp [Instruction.isLabel] at h

theorem codeSize_of_isLabel {code : List Instruction} (h : ∀ i ∈ code, i.isLabel = true) :
    codeSize code = 0 := by
  induction code with
  | nil => rfl
  | cons i code ih =>
    rw [codeSize_cons, size_of_isLabel (h i List.mem_cons_self),
      ih fun j hj => h j (List.mem_cons_of_mem i hj)]

/-- Only a label takes no bytes. -/
theorem size_pos {i : Instruction} (h : i.isLabel = false) : 0 < i.size := by
  cases i with
  | label name => simp [Instruction.isLabel] at h
  | text bytes => simp [Instruction.size]
  | array name bytes => simp [Instruction.size]
  | code op xs => rw [Instruction.size, Opcode.size_eq]; omega

/-- The banks hold the program, in order. A text may be cut, if `slice` allows it, into parts that
are not empty, each of which but the last ends its bank. -/
inductive Spread (slice : Bool) : List Instruction → List (List Instruction) → Prop
  | done : Spread slice [] [[]]
  | put {i : Instruction} {code b : List Instruction} {bs : List (List Instruction)} :
    Spread slice code (b :: bs) → Spread slice (i :: code) ((i :: b) :: bs)
  | turn {code : List Instruction} {bs : List (List Instruction)} :
    Spread slice code bs → Spread slice code ([] :: bs)
  | cut {head tail : List UInt8} {code : List Instruction} {bs : List (List Instruction)} :
    slice = true → head ≠ [] → tail ≠ [] → Spread slice (.text tail :: code) bs →
      Spread slice (.text (head ++ tail) :: code) ([.text head] :: bs)

namespace Spread

variable {slice : Bool} {xs ys code : List Instruction} {banks : List (List Instruction)}

theorem ne_nil (h : Spread slice code banks) : banks ≠ [] := by
  cases h <;> simp

/-- A program all of which is in one bank. -/
theorem single (code : List Instruction) : Spread slice code [code] := by
  induction code with
  | nil => exact .done
  | cons i code ih => exact .put ih

/-- What is spread over banks and what follows it, the first bank of which is the last one of the
former. -/
theorem join {front back : List (List Instruction)} {b₁ b₂ : List Instruction}
    (hx : Spread slice xs (front ++ [b₁])) (hy : Spread slice ys (b₂ :: back)) :
    Spread slice (xs ++ ys) (front ++ (b₁ ++ b₂) :: back) := by
  generalize e : front ++ [b₁] = banks at hx
  induction hx generalizing front b₁ with
  | done =>
    obtain ⟨rfl, rfl⟩ : front = [] ∧ b₁ = [] := by
      cases front <;> simp_all
    exact hy
  | @put i code b bs h ih =>
    cases front with
    | nil =>
      obtain ⟨rfl, rfl⟩ : b₁ = i :: b ∧ bs = [] := by simpa using e
      exact .put (@ih [] b rfl)
    | cons f front =>
      obtain ⟨rfl, rfl⟩ : f = i :: b ∧ front ++ [b₁] = bs := by simpa using e
      exact .put (@ih (b :: front) b₁ rfl)
  | @turn code bs h ih =>
    cases front with
    | nil =>
      obtain ⟨rfl, rfl⟩ : b₁ = [] ∧ bs = [] := by simpa using e
      exact absurd rfl h.ne_nil
    | cons f front =>
      obtain ⟨rfl, rfl⟩ : f = [] ∧ front ++ [b₁] = bs := by simpa using e
      exact .turn (ih rfl)
  | @cut head tail code bs sliced hhead htail h ih =>
    cases front with
    | nil =>
      obtain ⟨rfl, rfl⟩ : b₁ = [.text head] ∧ bs = [] := by simpa using e
      exact absurd rfl h.ne_nil
    | cons f front =>
      obtain ⟨rfl, rfl⟩ : f = [.text head] ∧ front ++ [b₁] = bs := by simpa using e
      exact .cut sliced hhead htail (ih rfl)

/-- Where the second of two programs begins, the banks come apart. -/
theorem split (h : Spread slice (xs ++ ys) banks) :
    ∃ front b₁ b₂ back, banks = front ++ (b₁ ++ b₂) :: back ∧
      Spread slice xs (front ++ [b₁]) ∧ Spread slice ys (b₂ :: back) := by
  generalize e : xs ++ ys = code at h
  induction h generalizing xs with
  | done =>
    obtain ⟨rfl, rfl⟩ : xs = [] ∧ ys = [] := by simpa using e
    exact ⟨[], [], [], [], rfl, .done, .done⟩
  | @put i code b bs h ih =>
    cases xs with
    | nil =>
      obtain rfl : ys = i :: code := e
      exact ⟨[], [], i :: b, bs, rfl, .done, .put h⟩
    | cons x xs =>
      obtain ⟨rfl, rfl⟩ : x = i ∧ xs ++ ys = code := by simpa using e
      obtain ⟨front, b₁, b₂, back, hb, hx, hy⟩ := ih rfl
      cases front with
      | nil =>
        obtain ⟨rfl, rfl⟩ : b = b₁ ++ b₂ ∧ bs = back := by simpa using hb
        exact ⟨[], x :: b₁, b₂, bs, rfl, .put hx, hy⟩
      | cons f front =>
        obtain ⟨rfl, rfl⟩ : b = f ∧ bs = front ++ (b₁ ++ b₂) :: back := by simpa using hb
        exact ⟨(x :: b) :: front, b₁, b₂, back, rfl, .put hx, hy⟩
  | turn h ih =>
    obtain ⟨front, b₁, b₂, back, rfl, hx, hy⟩ := ih e
    exact ⟨[] :: front, b₁, b₂, back, rfl, .turn hx, hy⟩
  | @cut head tail code bs sliced hhead htail h ih =>
    cases xs with
    | nil =>
      obtain rfl : ys = .text (head ++ tail) :: code := e
      exact ⟨[], [], [.text head], bs, rfl, .done, .cut sliced hhead htail h⟩
    | cons x xs =>
      obtain ⟨rfl, rfl⟩ : x = .text (head ++ tail) ∧ xs ++ ys = code := by simpa using e
      obtain ⟨front, b₁, b₂, back, rfl, hx, hy⟩ := @ih (.text tail :: xs) rfl
      exact ⟨[.text head] :: front, b₁, b₂, back, rfl, .cut sliced hhead htail hx, hy⟩

/-- A new bank can begin anywhere. -/
theorem insert {front back : List (List Instruction)} {b₁ b₂ : List Instruction}
    (h : Spread slice code (front ++ (b₁ ++ b₂) :: back)) :
    Spread slice code (front ++ b₁ :: b₂ :: back) := by
  generalize e : front ++ (b₁ ++ b₂) :: back = banks at h
  induction h generalizing front b₁ with
  | done =>
    obtain ⟨rfl, ⟨rfl, rfl⟩, rfl⟩ : front = [] ∧ (b₁ = [] ∧ b₂ = []) ∧ back = [] := by
      cases front <;> simp_all
    exact .turn .done
  | @put i code b bs h ih =>
    cases front with
    | nil =>
      cases b₁ with
      | nil =>
        obtain ⟨rfl, rfl⟩ : b₂ = i :: b ∧ back = bs := by simpa using e
        exact .turn (.put h)
      | cons x b₁ =>
        obtain ⟨⟨rfl, rfl⟩, rfl⟩ : (x = i ∧ b₁ ++ b₂ = b) ∧ back = bs := by simpa using e
        exact .put (@ih [] b₁ rfl)
    | cons f front =>
      obtain ⟨rfl, rfl⟩ : f = i :: b ∧ front ++ (b₁ ++ b₂) :: back = bs := by simpa using e
      exact .put (@ih (b :: front) b₁ rfl)
  | @turn code bs h ih =>
    cases front with
    | nil =>
      obtain ⟨⟨rfl, rfl⟩, rfl⟩ : (b₁ = [] ∧ b₂ = []) ∧ back = bs := by simpa using e
      exact .turn (.turn h)
    | cons f front =>
      obtain ⟨rfl, rfl⟩ : f = [] ∧ front ++ (b₁ ++ b₂) :: back = bs := by simpa using e
      exact .turn (ih rfl)
  | @cut head tail code bs sliced hhead htail h ih =>
    cases front with
    | nil =>
      cases b₁ with
      | nil =>
        obtain ⟨rfl, rfl⟩ : b₂ = [.text head] ∧ back = bs := by simpa using e
        exact .turn (.cut sliced hhead htail h)
      | cons x b₁ =>
        obtain ⟨⟨rfl, rfl, rfl⟩, rfl⟩ : (x = .text head ∧ b₁ = [] ∧ b₂ = []) ∧ back = bs := by
          simpa using e
        exact .cut sliced hhead htail (.turn h)
    | cons f front =>
      obtain ⟨rfl, rfl⟩ : f = [.text head] ∧ front ++ (b₁ ++ b₂) :: back = bs := by simpa using e
      exact .cut sliced hhead htail (ih rfl)

/-- What is found in a program, texts aside, is found in its banks, in the same order. -/
theorem filterMap_flatten {α : Type} {f : Instruction → Option α} (hf : ∀ t, f (.text t) = none)
    (h : Spread slice code banks) : banks.flatten.filterMap f = code.filterMap f := by
  induction h with
  | done => rfl
  | @put i code b bs h ih =>
    rw [List.flatten_cons, List.cons_append, List.filterMap_cons, List.filterMap_cons,
      ← List.flatten_cons, ih]
  | turn h ih => rw [List.flatten_cons, List.nil_append, ih]
  | cut sliced hhead htail h ih =>
    rw [List.flatten_cons, List.filterMap_append, ih]
    simp [hf]

theorem labelNames_flatten (h : Spread slice code banks) :
    labelNames banks.flatten = labelNames code := h.filterMap_flatten fun _ => rfl

theorem arrayNames_flatten (h : Spread slice code banks) :
    arrayNames banks.flatten = arrayNames code := h.filterMap_flatten fun _ => rfl

/-- Cutting a text into parts that are not empty changes nothing in what counts. -/
theorem codeWeight_flatten (h : Spread slice code banks) :
    codeWeight banks.flatten = codeWeight code := by
  induction h with
  | done => rfl
  | put _ ih => simpa [codeWeight_cons, List.flatten_cons] using ih
  | turn _ ih => simpa using ih
  | @cut head tail code bs _ headSome tailSome _ ih =>
    have one : 1 ≤ head.length := List.length_pos_iff.mpr headSome
    have two : 1 ≤ tail.length := List.length_pos_iff.mpr tailSome
    simp only [List.flatten_cons, codeWeight_append, codeWeight_cons, codeWeight_nil,
      Instruction.weight, List.length_append] at ih ⊢
    omega

theorem eq_of_append {b₁ b₂ c₁ c₂ : List Instruction} {j k : Instruction}
    (same : b₁ ++ j :: b₂ = c₁ ++ k :: c₂) (weight : codeWeight b₁ = codeWeight c₁) :
    b₁ = c₁ ∧ j = k := by
  rcases List.append_eq_append_iff.mp same with ⟨more, rfl, rest⟩ | ⟨more, rfl, rest⟩
  all_goals
    rw [codeWeight_append] at weight
    obtain rfl : more = [] := eq_nil_of_codeWeight (by omega)
    simp_all

/-- What is in the banks before an instruction says where it is. -/
theorem eq_of_banks {front front' back back' : List (List Instruction)}
    {b₁ b₂ c₁ c₂ : List Instruction} {j k : Instruction} (h : Spread slice code (front ++ [b₁]))
    (h' : Spread slice code (front' ++ [c₁]))
    (same : front ++ (b₁ ++ j :: b₂) :: back = front' ++ (c₁ ++ k :: c₂) :: back') :
    front = front' ∧ b₁ = c₁ ∧ j = k := by
  have weight : codeWeight (front.flatten ++ b₁) = codeWeight (front'.flatten ++ c₁) := by
    have := h.codeWeight_flatten.trans h'.codeWeight_flatten.symm
    simpa using this
  -- a longer front holds at least the instruction more
  have longer {front a back : List (List Instruction)} {b₁ b₂ c₁ : List Instruction}
      {j : Instruction} {back' : List (List Instruction)} {c₂ : List Instruction} {k : Instruction}
      (rest : (b₁ ++ j :: b₂) :: back = a ++ (c₁ ++ k :: c₂) :: back')
      (weight : codeWeight (front.flatten ++ b₁) = codeWeight ((front ++ a).flatten ++ c₁)) :
      a = [] ∧ b₁ = c₁ ∧ j = k := by
    cases a with
    | nil =>
      obtain ⟨here, -⟩ := List.cons.inj rest
      refine ⟨rfl, eq_of_append here ?_⟩
      simp only [List.append_nil, codeWeight_append] at weight
      omega
    | cons b a =>
      obtain ⟨rfl, -⟩ := List.cons.inj rest
      simp only [List.flatten_append, List.flatten_cons, codeWeight_append] at weight
      have : codeWeight (j :: b₂) ≠ 0 := fun none => by simpa using eq_nil_of_codeWeight none
      omega
  rcases List.append_eq_append_iff.mp same with ⟨a, rfl, rest⟩ | ⟨a, rfl, rest⟩
  · obtain ⟨rfl, here⟩ := longer rest weight
    exact ⟨(List.append_nil _).symm, here⟩
  · obtain ⟨rfl, rfl, rfl⟩ := longer rest weight.symm
    exact ⟨List.append_nil _, rfl, rfl⟩

/-- An instruction of the program is found in the banks behind what stands before it, as a whole
or, if it is a text, by its first part. -/
theorem locate {i : Instruction} (h : Spread slice (xs ++ i :: ys) banks) :
    ∃ front b₁ j b₂ back, banks = front ++ (b₁ ++ j :: b₂) :: back ∧
      Spread slice xs (front ++ [b₁]) ∧ j.Begins i ∧
      ((∀ t, i ≠ .text t) → Spread slice ys (b₂ :: back)) := by
  obtain ⟨front, b₁, b₂, back, rfl, hx, hy⟩ := h.split
  clear h
  -- banks that are left at once may stand between the two parts
  generalize eb : b₂ :: back = rest at hy
  generalize ei : i :: ys = code at hy
  induction hy generalizing front b₁ b₂ back with
  | done => simp at ei
  | @put j code b bs h _ =>
    obtain ⟨⟨rfl, rfl⟩, rfl, rfl⟩ : (b₂ = j :: b ∧ back = bs) ∧ i = j ∧ ys = code := by
      simpa using And.intro eb ei
    exact ⟨front, b₁, i, b, back, rfl, hx, .inl rfl, fun _ => h⟩
  | @turn code bs h ih =>
    obtain ⟨rfl, rfl⟩ : b₂ = [] ∧ back = bs := by simpa using eb
    obtain ⟨c, back, rfl⟩ := List.exists_cons_of_ne_nil h.ne_nil
    obtain ⟨front', b₁', j, b₂', back', hb, hx', hj⟩ :=
      ih (front ++ [b₁]) [] c back (by simpa using hx.join (.turn .done)) rfl ei
    exact ⟨front', b₁', j, b₂', back', by simpa using hb, hx', hj⟩
  | @cut head tail code bs _ hhead _ _ _ =>
    obtain ⟨⟨rfl, rfl⟩, rfl, rfl⟩ :
        (b₂ = [.text head] ∧ back = bs) ∧ i = .text (head ++ tail) ∧ ys = code := by
      simpa using And.intro eb ei
    exact ⟨front, b₁, .text head, [], back, rfl, hx, .inr ⟨head, tail, hhead, rfl, rfl⟩,
      fun hi => absurd rfl (hi _)⟩

end Spread

/-- The instructions end with one that is not a label. -/
def Tight (b : List Instruction) : Prop := ∃ c j, b = c ++ [j] ∧ j.isLabel = false

/-- What stands behind a label of a tight bank is tight. -/
theorem Tight.of_label {b₁ b₂ : List Instruction} {m : Instruction} (h : Tight (b₁ ++ m :: b₂))
    (hm : m.isLabel = true) : Tight b₂ := by
  obtain ⟨c, j, e, hj⟩ := h
  rcases List.eq_nil_or_concat' b₂ with rfl | ⟨b, k, rfl⟩
  · obtain ⟨-, rfl⟩ := List.append_inj' e rfl |>.imp_right (List.singleton_inj.mp ·)
    simp [hm] at hj
  · have : (b₁ ++ m :: b) ++ [k] = c ++ [j] := by simpa using e
    obtain ⟨-, rfl⟩ := List.append_inj' this rfl |>.imp_right (List.singleton_inj.mp ·)
    exact ⟨b, k, rfl, hj⟩

/-- Labels and what they name are in one bank, if no bank but the last ends with a label. -/
theorem Spread.behind_labels {slice : Bool} {ms ys b : List Instruction} {i : Instruction}
    {back : List (List Instruction)} (hms : ∀ m ∈ ms, m.isLabel = true)
    (tight : back ≠ [] → Tight b) (h : Spread slice (ms ++ i :: ys) (b :: back)) :
    ∃ j b₂, b = ms ++ j :: b₂ ∧ j.Begins i := by
  induction ms generalizing b with
  | nil =>
    cases h with
    | @put _ _ b _ h => exact ⟨i, b, rfl, .inl rfl⟩
    | turn h =>
      obtain ⟨c, j, e, -⟩ := tight h.ne_nil
      simp at e
    | @cut head tail _ _ _ hhead _ h =>
      exact ⟨.text head, [], rfl, .inr ⟨head, tail, hhead, rfl, rfl⟩⟩
  | cons m ms ih =>
    have hm := hms m List.mem_cons_self
    cases h with
    | @put _ _ b _ h =>
      obtain ⟨j, b₂, rfl, hj⟩ := ih (fun k hk => hms k (List.mem_cons_of_mem m hk))
        (fun hb => @Tight.of_label [] b m (tight hb) hm) h
      exact ⟨j, b₂, rfl, hj⟩
    | turn h =>
      obtain ⟨c, j, e, -⟩ := tight h.ne_nil
      simp at e
    | cut => simp [Instruction.isLabel] at hm

end Memory

end Gamebook
