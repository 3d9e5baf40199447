import Gamebook.Bytecode.Instruction
import Gamebook.Memory.Window

/-!
# Laying a program out in banks

Instructions are put into a bank one after the other, in order. When the next one does not fit, a
jump to the next bank is put behind the last and a new bank is begun; labels at the end of the old
bank name what follows, so they move to the new one (`Plan.turn`). A text may be cut at the end of
a bank if that is allowed (`Plan.placeSliced`).

What is laid out is a list of pieces for each bank. Where a label or an array lies is noted when it
is put there, and noted again for the labels that move.
-/

namespace Gamebook.Memory

/-- What a bank holds. -/
inductive Piece where
  /-- An instruction, or a part of a text. -/
  | item (i : Instruction)
  /-- A jump to the beginning of the next bank. -/
  | bridge
deriving DecidableEq

namespace Piece

/-- How many bytes the piece takes. -/
def size : Piece → Nat
  | .item i => i.size
  | .bridge => bridgeSize

/-- Whether the piece is a label. -/
def isLabel : Piece → Bool
  | .item (.label _) => true
  | _ => false

/-- The name of a label. -/
def label? : Piece → Option String
  | .item (.label name) => some name
  | _ => none

/-- The name of an array and its length. -/
def array? : Piece → Option (String × Nat)
  | .item (.array name bytes) => some (name, bytes.length)
  | _ => none

theorem size_eq_zero_of_isLabel {p : Piece} (h : p.isLabel = true) : p.size = 0 := by
  cases p with
  | bridge => simp [isLabel] at h
  | item i => cases i <;> simp_all [isLabel, size, Instruction.size]

end Piece

/-- How many bytes pieces take together. -/
def totalSize (pieces : List Piece) : Nat := pieces.foldr (·.size + ·) 0

@[simp] theorem totalSize_nil : totalSize [] = 0 := rfl

@[simp] theorem totalSize_cons (p : Piece) (ps : List Piece) :
    totalSize (p :: ps) = p.size + totalSize ps := rfl

/-- Labels take no bytes. -/
theorem totalSize_eq_zero {ps : List Piece} (h : ∀ p ∈ ps, p.isLabel = true) :
    totalSize ps = 0 := by
  induction ps with
  | nil => rfl
  | cons p ps ih =>
    rw [totalSize_cons, Piece.size_eq_zero_of_isLabel (h p List.mem_cons_self),
      ih fun q hq => h q (List.mem_cons_of_mem p hq)]

theorem totalSize_append (ps qs : List Piece) :
    totalSize (ps ++ qs) = totalSize ps + totalSize qs := by
  induction ps with
  | nil => simp
  | cons p ps ih => rw [List.cons_append, totalSize_cons, totalSize_cons, ih, Nat.add_assoc]

/-- A byte of a bank. -/
structure Place where
  bank : Nat
  offset : Nat
deriving DecidableEq

/-- Notes what a name stands for, instead of what was noted for it before. -/
def note {α : Type} (entries : List (String × α)) (name : String) (a : α) : List (String × α) :=
  entries.filter (·.1 ≠ name) ++ [(name, a)]

/-- A program that is laid out up to some point. -/
@[ext]
structure Plan where
  /-- The banks that are full, in order. -/
  closed : List (List Piece)
  /-- The bank that is being filled. -/
  current : List Piece
  /-- How many bytes of the last bank are filled. -/
  offset : Nat
  /-- Where each label lies. -/
  labels : List (String × Place)
  /-- Where the first element of each array lies, and how many it has. -/
  arrays : List (String × Place × Nat)
  offset_eq : offset = totalSize current

/-- Why laying out stopped, and how many banks there were by then. -/
structure Failure where
  cause : GenerateError
  banks : Nat

namespace Plan

/-- Nothing in the first bank. -/
def empty : Plan := ⟨[], [], 0, [], [], rfl⟩

/-- All banks. -/
def banks (p : Plan) : List (List Piece) := p.closed ++ [p.current]

/-- How many banks there are. -/
def count (p : Plan) : Nat := p.closed.length + 1

/-- How many bytes of the last bank can be filled. -/
def usable (o : Options) (p : Plan) : Nat := (o.window p.closed.length).usable

/-- How many bytes of the last bank are left to be filled. -/
def room (o : Options) (p : Plan) : Nat := p.usable o - p.offset

/-- Puts an instruction behind the others, and notes where it lies if it has a name. The elements of
an array come behind an opcode and a length. -/
def push (p : Plan) (i : Instruction) : Plan where
  closed := p.closed
  current := p.current ++ [.item i]
  offset := p.offset + i.size
  labels := match i with
    | .label name => note p.labels name ⟨p.closed.length, p.offset⟩
    | _ => p.labels
  arrays := match i with
    | .array name bytes => note p.arrays name (⟨p.closed.length, p.offset + 2⟩, bytes.length)
    | _ => p.arrays
  offset_eq := by simp [p.offset_eq, totalSize_append, Piece.size]

/-- The labels at the end of the last bank. -/
def moved (p : Plan) : List Piece := (p.current.reverse.takeWhile Piece.isLabel).reverse

theorem totalSize_moved (p : Plan) : totalSize p.moved = 0 := by
  refine totalSize_eq_zero fun q hq => ?_
  exact List.all_eq_true.mp List.all_takeWhile q (List.mem_reverse.mp hq)

/-- Closes the last bank and begins a new one with the labels from its end, which lie there from now
on. -/
def turn (p : Plan) : Plan where
  closed := p.closed ++ [(p.current.reverse.dropWhile Piece.isLabel).reverse ++ [.bridge]]
  current := p.moved
  offset := 0
  labels := (p.moved.filterMap Piece.label?).foldl
    (fun labels name => note labels name ⟨p.closed.length + 1, 0⟩) p.labels
  arrays := p.arrays
  offset_eq := p.totalSize_moved.symm

/-- Makes sure that a block of `size` bytes goes to the beginning of a bank. -/
def switch (o : Options) (size : Nat) (p : Plan) : Except Failure Plan :=
  let p := if 0 < p.offset then p.turn else p
  if maxBanks < p.count then .error ⟨.tooManyBanks maxBanks, p.count⟩
  else if p.usable o < size then .error ⟨.blockTooBig size (p.usable o), p.count⟩
  else .ok p

/-- Makes sure that a block of `size` bytes fits behind what there is. -/
def makeRoom (o : Options) (size : Nat) (p : Plan) : Except Failure Plan :=
  if p.usable o < p.offset + size then p.switch o size else .ok p

/-- Behind a switch, the last bank has room for what was asked. -/
theorem le_room_of_switch {o : Options} {size : Nat} {p q : Plan}
    (h : p.switch o size = .ok q) : size ≤ q.room o := by
  unfold switch at h
  have offset_zero : (if 0 < p.offset then p.turn else p).offset = 0 := by
    split
    · rfl
    · omega
  revert h
  generalize (if 0 < p.offset then p.turn else p) = r at offset_zero
  intro h
  simp only at h
  split at h
  · simp at h
  · split at h
    · simp at h
    · injection h with h
      subst h
      unfold room
      omega

/-- Cutting a text that does not fit leaves a shorter one. -/
theorem length_drop_cut {o : Options} {p : Plan} {rest : List UInt8}
    (long : ¬ p.offset + (rest.length + 2) ≤ p.usable o) (roomy : 3 ≤ p.room o) :
    (rest.drop (p.room o - 2)).length < rest.length := by
  have : p.room o = p.usable o - p.offset := rfl
  rw [List.length_drop]
  omega

/-- Lays out a text that may be cut. Each part has an opcode and an end of its own and at least one
byte between them, so fewer than three bytes at the end of a bank are left alone. -/
def placeSliced (o : Options) (p : Plan) (rest : List UInt8) : Except Failure Plan :=
  if fits : p.offset + (rest.length + 2) ≤ p.usable o then .ok (p.push (.text rest))
  else if roomy : 3 ≤ p.room o then
    have := length_drop_cut fits roomy
    match (p.push (.text (rest.take (p.room o - 2)))).switch o 0 with
    | .error e => .error e
    | .ok q => placeSliced o q (rest.drop (p.room o - 2))
  else
    match h : p.switch o 3 with
    | .error e => .error e
    | .ok q =>
      have := le_room_of_switch h
      placeSliced o q rest
termination_by 2 * rest.length + if 3 ≤ p.room o then 0 else 1
decreasing_by
  · rw [if_pos roomy]
    split <;> omega
  · rw [if_neg roomy, if_pos this]
    omega

/-- Lays out a text. -/
def placeText (o : Options) (p : Plan) (bytes : List UInt8) : Except Failure Plan :=
  if o.sliceText then p.placeSliced o bytes
  else do return (← p.makeRoom o (bytes.length + 2)).push (.text bytes)

/-- Lays out one more instruction. -/
def place (o : Options) (p : Plan) (i : Instruction) : Except Failure Plan :=
  match i with
  | .label name =>
    if name ∈ p.labels.map (·.1) then .error ⟨.duplicateLabel name, p.count⟩ else .ok (p.push i)
  | .text bytes => p.placeText o bytes
  | .array name _ => do
    let p ← p.makeRoom o i.size
    if name ∈ p.arrays.map (·.1) then .error ⟨.duplicateLabel name, p.count⟩ else .ok (p.push i)
  | .code .. => do return (← p.makeRoom o i.size).push i

/-- Lays out a program. -/
def of (o : Options) (code : List Instruction) : Except Failure Plan :=
  code.foldlM (Plan.place o) .empty

end Plan

/-- The pieces of each bank. -/
def layout (o : Options) (code : List Instruction) : Except Failure (List (List Piece)) := do
  return (← Plan.of o code).banks

end Gamebook.Memory
