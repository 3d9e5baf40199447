import Mathlib.Data.List.Forall2
import Gamebook.Bytecode.Instruction

/-!
# Reading bytes back as instructions

A decoder for the bytes of a bank that knows nothing of how they were written: it goes from the
first byte on, looks up the opcode, and takes the operands in the forms that the opcode has. A text
goes up to the next byte 0, and an array begins with its length. `decode` gives a result only if it
ends exactly where the bytes end.

What stands in front of bytes that can be decoded is read on its own (`decode_cons`), so the bytes
of one instruction after the other are read back by reading each (`decodeOne_text`,
`decodeOne_data`, `decodeOne_code`).
-/

namespace Gamebook

/-- An instruction as it is found in memory, where operands are bytes and nothing has a name. -/
inductive Decoded where
  | text (bytes : List UInt8)
  | data (bytes : List UInt8)
  | code (opcode : Opcode) (operands : List (List UInt8))
deriving DecidableEq

/-- The first `n` bytes and the others. -/
def takeBytes (n : Nat) (bytes : List UInt8) : Option (List UInt8 × List UInt8) :=
  if bytes.length < n then none else some (bytes.splitAt n)

/-- The bytes of operands in these forms, and what follows them. -/
def takeOperands : List OperandShape → List UInt8 → Option (List (List UInt8) × List UInt8)
  | [], bytes => some ([], bytes)
  | shape :: shapes, bytes => do
    let (first, bytes) ← takeBytes shape.size bytes
    let (others, bytes) ← takeOperands shapes bytes
    return (first :: others, bytes)

/-- What follows an opcode, and what follows that. -/
def decodeBody (opcode : Opcode) (bytes : List UInt8) : Option (Decoded × List UInt8) :=
  match opcode with
  | .TEXT =>
    match bytes.dropWhile (· ≠ 0) with
    | [] => none
    | _ :: rest => some (.text (bytes.takeWhile (· ≠ 0)), rest)
  | .DATA =>
    match bytes with
    | [] => none
    | length :: bytes => (takeBytes length.toNat bytes).map fun (data, rest) => (.data data, rest)
  | opcode => (takeOperands opcode.operands bytes).map fun (ys, rest) => (.code opcode ys, rest)

/-- The instruction that the bytes begin with, and what follows it. -/
def decodeOne : List UInt8 → Option (Decoded × List UInt8)
  | [] => none
  | first :: bytes => (Opcode.ofCode? first).bind fun opcode => decodeBody opcode bytes

variable {bytes rest : List UInt8}

theorem takeBytes_append (xs rest : List UInt8) :
    takeBytes xs.length (xs ++ rest) = some (xs, rest) := by
  simp [takeBytes]

theorem length_of_takeBytes {n : Nat} {xs : List UInt8} (h : takeBytes n bytes = some (xs, rest)) :
    rest.length ≤ bytes.length := by
  unfold takeBytes at h
  split at h
  · simp at h
  · obtain ⟨-, rfl⟩ : bytes.take n = xs ∧ bytes.drop n = rest := by simpa using h
    simp

theorem length_of_takeOperands {shapes : List OperandShape} {ys : List (List UInt8)}
    (h : takeOperands shapes bytes = some (ys, rest)) : rest.length ≤ bytes.length := by
  induction shapes generalizing bytes ys with
  | nil =>
    obtain ⟨-, rfl⟩ : [] = ys ∧ bytes = rest := by simpa [takeOperands] using h
    exact Nat.le_refl _
  | cons shape shapes ih =>
    obtain ⟨⟨first, mid⟩, hfirst, h⟩ := Option.bind_eq_some_iff.mp h
    obtain ⟨⟨others, mid'⟩, hothers, h⟩ := Option.bind_eq_some_iff.mp h
    obtain ⟨-, rfl⟩ : first :: others = ys ∧ mid' = rest := by simpa using h
    exact Nat.le_trans (ih hothers) (length_of_takeBytes hfirst)

theorem length_of_decodeBody {opcode : Opcode} {d : Decoded}
    (h : decodeBody opcode bytes = some (d, rest)) : rest.length ≤ bytes.length := by
  unfold decodeBody at h
  split at h
  · split at h
    · simp at h
    · next found =>
      obtain ⟨-, rfl⟩ := Prod.mk.inj (Option.some.inj h)
      have := congrArg List.length found
      have := (bytes.dropWhile_suffix (· ≠ 0)).length_le
      simp only [List.length_cons] at *
      omega
  · split at h
    · simp at h
    · obtain ⟨⟨data, mid⟩, hdata, e⟩ := Option.map_eq_some_iff.mp h
      obtain ⟨-, rfl⟩ := Prod.mk.inj e
      exact Nat.le_succ_of_le (length_of_takeBytes hdata)
  · obtain ⟨⟨ys, mid⟩, hys, e⟩ := Option.map_eq_some_iff.mp h
    obtain ⟨-, rfl⟩ := Prod.mk.inj e
    exact length_of_takeOperands hys

theorem length_of_decodeOne {d : Decoded} (h : decodeOne bytes = some (d, rest)) :
    rest.length < bytes.length := by
  cases bytes with
  | nil => simp [decodeOne] at h
  | cons first bytes =>
    obtain ⟨opcode, -, h⟩ := Option.bind_eq_some_iff.mp h
    exact Nat.lt_succ_of_le (length_of_decodeBody h)

/-- The instructions that the bytes are, if they are read to the last byte. -/
def decode (bytes : List UInt8) : Option (List Decoded) :=
  if bytes = [] then some []
  else
    match h : decodeOne bytes with
    | none => none
    | some (d, rest) =>
      have := length_of_decodeOne h
      (decode rest).map (d :: ·)
termination_by bytes.length

@[simp] theorem decode_nil : decode [] = some [] := by simp [decode]

/-- An instruction that is read is followed by those that the other bytes are. -/
theorem decode_cons {d : Decoded} (h : decodeOne bytes = some (d, rest)) :
    decode bytes = (decode rest).map (d :: ·) := by
  have : bytes ≠ [] := by
    rintro rfl
    simp [decodeOne] at h
  rw [decode, if_neg this]
  split
  · next e => simp [h] at e
  · next d' rest' e =>
    obtain ⟨rfl, rfl⟩ : d = d' ∧ rest = rest' := by simpa [h] using e
    rfl

/-! ## What is written is read -/

theorem decodeOne_code_cons (opcode : Opcode) (bytes : List UInt8) :
    decodeOne (opcode.code :: bytes) = decodeBody opcode bytes := by
  rw [decodeOne, Opcode.ofCode?_code, Option.bind_some]

theorem decodeOne_text (h : 0 ∉ bytes) (rest : List UInt8) :
    decodeOne (Opcode.TEXT.code :: bytes ++ [0x00] ++ rest) = some (.text bytes, rest) := by
  have nonzero : ∀ b ∈ bytes, decide (b ≠ 0) = true := fun b hb => by
    simpa using fun e : b = 0 => h (e ▸ hb)
  rw [List.cons_append, List.cons_append, decodeOne_code_cons, List.append_assoc, decodeBody]
  rw [List.dropWhile_append_of_pos nonzero, List.takeWhile_append_of_pos nonzero]
  simp

theorem decodeOne_data (h : bytes.length ≤ 255) (rest : List UInt8) :
    decodeOne (Opcode.DATA.code :: bytes.length.toUInt8 :: bytes ++ rest) =
      some (.data bytes, rest) := by
  have length_eq : bytes.length.toUInt8.toNat = bytes.length :=
    UInt8.toNat_ofNat_of_lt' (by simpa using Nat.lt_succ_of_le h)
  rw [List.cons_append, List.cons_append, decodeOne_code_cons, decodeBody]
  dsimp only
  rw [length_eq, takeBytes_append]
  rfl

theorem takeOperands_flatten {shapes : List OperandShape} {ys : List (List UInt8)}
    (h : List.Forall₂ (fun shape y => y.length = shape.size) shapes ys) (rest : List UInt8) :
    takeOperands shapes (ys.flatten ++ rest) = some (ys, rest) := by
  induction h with
  | nil => rfl
  | @cons shape y shapes ys hy _ ih =>
    rw [takeOperands, List.flatten_cons, List.append_assoc, ← hy, takeBytes_append]
    simp [ih]

theorem decodeOne_code {opcode : Opcode} {ys : List (List UInt8)} (text : opcode ≠ .TEXT)
    (data : opcode ≠ .DATA)
    (h : List.Forall₂ (fun shape y => y.length = shape.size) opcode.operands ys)
    (rest : List UInt8) :
    decodeOne (opcode.code :: ys.flatten ++ rest) = some (.code opcode ys, rest) := by
  rw [List.cons_append, decodeOne_code_cons]
  unfold decodeBody
  split
  · exact absurd rfl text
  · exact absurd rfl data
  · rw [takeOperands_flatten h]
    rfl

end Gamebook
