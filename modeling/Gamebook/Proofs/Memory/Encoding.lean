import Gamebook.Memory.Image
import Gamebook.Proofs.Memory.Filling

/-!
# What is written to the banks

The second pass writes what the first one laid out: the bytes of a bank are those of its pieces, one
after the other (`Context.Writes`), and a piece takes as many bytes as the first pass counted
(`Context.length_encode`). So the offset at which a piece was laid out is the one at which its
bytes are found.

`Placed` collects what both passes say about a program that was placed in memory, and
`generate_eq_ok` that every image comes about this way. All statements on images start from there.
-/

namespace Gamebook.Memory

/-! ## Sizes -/

namespace Context

variable {c : Context} {o : Options} {op : Opcode} {bank : Nat}

/-- An operand takes the bytes that its form says. -/
theorem length_operand {shape : OperandShape} {x : Operand} {bytes : List UInt8}
    (h : c.operand op shape x = .ok bytes) : bytes.length = shape.size := by
  unfold operand at h
  split at h
  case h_11 => simp at h
  case h_9 =>
    split at h
    · obtain rfl := Except.ok.inj h
      rfl
    · simp at h
  all_goals
    first
    | obtain rfl := Except.ok.inj h
      rfl
    | obtain ⟨a, -, e⟩ := bind_eq_ok.mp h
      obtain rfl := Except.ok.inj e
      rfl

/-- The bytes of operands are those of each, one after the other. -/
theorem operands_eq_ok {shapes : List OperandShape} {xs : List Operand} {bytes : List UInt8}
    (h : c.operands op shapes xs = .ok bytes) :
    ∃ ys, bytes = ys.flatten ∧
      List.Forall₂ (fun x y => c.operand op x.1 x.2 = .ok y) (shapes.zip xs) ys := by
  fun_induction operands c op shapes xs generalizing bytes with
  | case1 shape shapes x xs ih =>
    obtain ⟨y, hy, h⟩ := bind_eq_ok.mp h
    obtain ⟨rest, hrest, h⟩ := bind_eq_ok.mp h
    obtain rfl := Except.ok.inj h
    obtain ⟨ys, rfl, hys⟩ := ih hrest
    exact ⟨y :: ys, rfl, .cons hy hys⟩
  | case2 shapes xs hne =>
    obtain rfl := Except.ok.inj h
    refine ⟨[], rfl, ?_⟩
    cases shapes with
    | nil => exact .nil
    | cons shape shapes =>
      cases xs with
      | nil => exact .nil
      | cons x xs => exact absurd rfl (hne shape shapes x xs rfl)

theorem length_flatten_operands {xs : List (OperandShape × Operand)} {ys : List (List UInt8)}
    (h : List.Forall₂ (fun x y => c.operand op x.1 x.2 = .ok y) xs ys) :
    ys.flatten.length = shapesSize (xs.map (·.1)) := by
  induction h with
  | nil => rfl
  | cons hy _ ih =>
    rw [List.flatten_cons, List.length_append, ih, length_operand hy, List.map_cons,
      shapesSize_cons]

/-- An instruction that is encoded has an operand for each form, and its bytes are the opcode and
those of the operands. -/
theorem encode_code_eq_ok {xs : List Operand} {bytes : List UInt8}
    (h : c.encode o bank (.item (.code op xs)) = .ok bytes) :
    op.operands.length = xs.length ∧ ∃ ys, bytes = op.code :: ys.flatten ∧
      List.Forall₂ (fun x y => c.operand op x.1 x.2 = .ok y) (op.operands.zip xs) ys := by
  simp only [encode] at h
  split at h
  · simp at h
  · next same =>
    obtain ⟨rest, hrest, h⟩ := bind_eq_ok.mp h
    obtain rfl := Except.ok.inj h
    obtain ⟨ys, rfl, hys⟩ := operands_eq_ok hrest
    exact ⟨by omega, ys, rfl, hys⟩

/-- A piece takes as many bytes as it was given room. -/
theorem length_encode {p : Piece} {bytes : List UInt8} (h : c.encode o bank p = .ok bytes) :
    bytes.length = p.size := by
  cases p with
  | bridge =>
    obtain rfl := Except.ok.inj h
    rfl
  | item i =>
    cases i with
    | label name =>
      obtain rfl := Except.ok.inj h
      rfl
    | text t =>
      obtain rfl := Except.ok.inj h
      simp [Piece.size, Instruction.size]
    | array name data =>
      obtain rfl := Except.ok.inj h
      simp [Piece.size, Instruction.size]
    | code op xs =>
      obtain ⟨same, ys, rfl, hys⟩ := encode_code_eq_ok h
      rw [List.length_cons, length_flatten_operands hys, Piece.size, Instruction.size,
        Opcode.size_eq, List.map_fst_zip same.le, Nat.add_comm]

/-! ## Banks -/

/-- The pieces of a bank and their bytes. -/
inductive Writes (c : Context) (o : Options) (bank : Nat) : List Piece → List UInt8 → Prop
  | nil : Writes c o bank [] []
  | cons {p : Piece} {ps : List Piece} {first rest : List UInt8} :
    c.encode o bank p = .ok first → Writes c o bank ps rest →
      Writes c o bank (p :: ps) (first ++ rest)

namespace Writes

variable {ps qs : List Piece} {bytes : List UInt8}

theorem of_encodeBank {es : List (Piece × List UInt8)} (h : c.encodeBank o bank ps = .ok es) :
    c.Writes o bank ps (es.flatMap (·.2)) := by
  induction ps generalizing es with
  | nil =>
    obtain rfl := Except.ok.inj h
    exact .nil
  | cons p ps ih =>
    obtain ⟨first, hfirst, h⟩ := bind_eq_ok.mp h
    obtain ⟨rest, hrest, h⟩ := bind_eq_ok.mp h
    obtain rfl := Except.ok.inj h
    exact .cons hfirst (ih hrest)

theorem length_eq (h : c.Writes o bank ps bytes) : bytes.length = totalSize ps := by
  induction h with
  | nil => rfl
  | cons hp _ ih => rw [List.length_append, length_encode hp, ih, totalSize_cons]

theorem append_inv (h : c.Writes o bank (ps ++ qs) bytes) :
    ∃ front back, bytes = front ++ back ∧ c.Writes o bank ps front ∧ c.Writes o bank qs back := by
  induction ps generalizing bytes with
  | nil => exact ⟨[], bytes, rfl, .nil, h⟩
  | cons p ps ih =>
    cases h with
    | cons hp h =>
      obtain ⟨front, back, rfl, hfront, hback⟩ := ih h
      exact ⟨_, back, (List.append_assoc ..).symm, .cons hp hfront, hback⟩

/-- The bytes of one of the pieces stand behind as many bytes as the pieces before it take. -/
theorem piece {p : Piece} (h : c.Writes o bank (ps ++ p :: qs) bytes) :
    ∃ front mid back, bytes = front ++ mid ++ back ∧ front.length = totalSize ps ∧
      c.encode o bank p = .ok mid := by
  obtain ⟨front, rest, rfl, hfront, hrest⟩ := h.append_inv
  cases hrest with
  | @cons _ _ mid back hp h =>
    exact ⟨front, mid, back, (List.append_assoc ..).symm, hfront.length_eq, hp⟩

end Writes

/-- Every bank of the image is written from the pieces laid out for it. -/
theorem writes_of_encodeBanks {banks : List (List Piece)} {es : List (List (Piece × List UInt8))}
    (h : c.encodeBanks o bank banks = .ok es) :
    (Image.banksFrom o bank es).length = banks.length ∧ ∀ k ps, banks[k]? = some ps →
      ∃ bytes, (Image.banksFrom o bank es)[k]? = some ⟨o.window (bank + k), bytes⟩ ∧
        c.Writes o (bank + k) ps bytes := by
  induction banks generalizing bank es with
  | nil =>
    obtain rfl := Except.ok.inj h
    simp [Image.banksFrom]
  | cons b banks ih =>
    obtain ⟨first, hfirst, h⟩ := bind_eq_ok.mp h
    obtain ⟨rest, hrest, h⟩ := bind_eq_ok.mp h
    obtain rfl := Except.ok.inj h
    obtain ⟨length_eq, hbanks⟩ := ih hrest
    refine ⟨by simp [Image.banksFrom, length_eq], fun k ps hk => ?_⟩
    cases k with
    | zero =>
      obtain rfl : b = ps := by simpa using hk
      exact ⟨first.flatMap (·.2), rfl, Writes.of_encodeBank hfirst⟩
    | succ k =>
      obtain ⟨bytes, hbytes, hwrites⟩ := hbanks k ps (by simpa using hk)
      rw [Nat.add_assoc, Nat.add_comm 1 k] at hbytes hwrites
      exact ⟨bytes, hbytes, hwrites⟩

theorem pieces_of_encodeBank {ps : List Piece} {es : List (Piece × List UInt8)}
    (h : c.encodeBank o bank ps = .ok es) : es.map (·.1) = ps := by
  induction ps generalizing es with
  | nil =>
    obtain rfl := Except.ok.inj h
    rfl
  | cons p ps ih =>
    obtain ⟨first, -, h⟩ := bind_eq_ok.mp h
    obtain ⟨rest, hrest, h⟩ := bind_eq_ok.mp h
    obtain rfl := Except.ok.inj h
    rw [List.map_cons, ih hrest]

/-- The pieces that are written are those laid out. -/
theorem pieces_of_encodeBanks {banks : List (List Piece)} {es : List (List (Piece × List UInt8))}
    (h : c.encodeBanks o bank banks = .ok es) : es.map (·.map (·.1)) = banks := by
  induction banks generalizing bank es with
  | nil =>
    obtain rfl := Except.ok.inj h
    rfl
  | cons b banks ih =>
    obtain ⟨first, hfirst, h⟩ := bind_eq_ok.mp h
    obtain ⟨rest, hrest, h⟩ := bind_eq_ok.mp h
    obtain rfl := Except.ok.inj h
    rw [List.map_cons, pieces_of_encodeBank hfirst, ih hrest]

end Context

/-- The opcodes that are listed are those the pieces begin with. -/
theorem Image.mem_used_ofEncoded {c : Context} {o : Options}
    {es : List (List (Piece × List UInt8))} {op : Opcode} :
    op ∈ (Image.ofEncoded c o es).used ↔
      ∃ ps ∈ es.map (·.map (·.1)), ∃ p ∈ ps, p.opcode? = some op := by
  simp [Image.ofEncoded, Opcode.mem_all]

/-! ## Images -/

theorem Options.window_mem {o : Options} (some : o.windows ≠ []) (k : Nat) :
    o.window k ∈ o.windows := by
  have lt_length : min k (o.windows.length - 1) < o.windows.length := by
    have := List.length_pos_iff.mpr some
    omega
  rw [Options.window, List.getElem?_eq_getElem lt_length]
  exact List.getElem_mem lt_length

theorem Options.window_isValid {o : Options} (h : o.check = .ok ()) (k : Nat) :
    (o.window k).isValid = true := by
  unfold Options.check at h
  split at h
  · simp at h
  · next nonempty =>
    split at h
    · simp at h
    · next none_invalid =>
      have some := List.isEmpty_eq_false_iff.mp (Bool.eq_false_iff.mpr nonempty)
      simpa using List.find?_eq_none.mp none_invalid _ (Options.window_mem some k)

/-- What the operands of a program refer to once it is laid out. -/
def resolution (o : Options) (symbols : Symbol.Table) (code : List Instruction) : Context :=
  Context.of o symbols ((Plan.of o code).toOption.getD .empty)

/-- A program is in memory: its instructions lie in the banks of the draft, and the banks of the
image are written from them. -/
structure Placed (o : Options) (symbols : Symbol.Table) (code : List Instruction) (image : Image)
    (d : Draft) : Prop where
  window_isValid : ∀ k, (o.window k).isValid = true
  plan_eq : Plan.of o code = .ok d.plan
  fill : Fill o .empty code d
  labels_nodup : (labelNames code).Nodup
  arrays_nodup : (arrayNames code).Nodup
  length_eq : image.banks.length = d.banks.length
  bank : ∀ k ps, (sealed d.banks)[k]? = some ps → ∃ bytes,
    image.banks[k]? = some ⟨o.window k, bytes⟩ ∧
      (resolution o symbols code).Writes o k ps bytes
  labels_eq : image.labels =
    Image.byName ((resolution o symbols code).labels.filter fun l => !Symbol.isReserved l.1)
  arrays_eq : image.arrays =
    Image.byName ((resolution o symbols code).arrays.map fun (name, first, _) => (name, first))
  mem_used : ∀ op, op ∈ image.used ↔ ∃ ps ∈ sealed d.banks, ∃ p ∈ ps, p.opcode? = some op

namespace Placed

variable {o : Options} {symbols : Symbol.Table} {code : List Instruction} {image : Image}
  {d : Draft}

theorem sound (h : Placed o symbols code image d) : d.Sound o := h.fill.sound .empty

theorem spread (h : Placed o symbols code image d) : Spread o.sliceText code d.banks :=
  h.fill.spread

theorem layout_eq (h : Placed o symbols code image d) :
    layout o code = .ok (sealed d.banks) := by
  rw [layout, h.plan_eq, ← d.plan_banks]
  rfl

theorem resolution_eq (h : Placed o symbols code image d) :
    resolution o symbols code = Context.of o symbols d.plan := by
  rw [resolution, h.plan_eq]
  rfl

end Placed

/-- An image comes about by laying the program out and writing what was laid out. -/
theorem generate_eq_ok {o : Options} {symbols : Symbol.Table} {code : List Instruction} {log : Log}
    {image : Image} (h : generate o symbols code = (log, .ok image)) :
    ∃ d : Draft, Placed o symbols code image d := by
  unfold generate at h
  split at h
  · simp at h
  · next valid =>
    split at h
    · simp at h
    · next p laidOut =>
      have resolution_eq : resolution o symbols code = Context.of o symbols p := by
        rw [resolution, laidOut]
        rfl
      obtain ⟨d, rfl, fill, labels, arrays⟩ := Plan.of_eq_ok laidOut
      dsimp only at h
      split at h
      · simp at h
      · next encoded written =>
        rw [d.plan_banks] at written
        obtain ⟨length_eq, hbanks⟩ := Context.writes_of_encodeBanks written
        obtain rfl : Image.ofEncoded _ o encoded = image := by simpa using (Prod.mk.inj h).2
        simp only [Nat.zero_add] at hbanks
        exact ⟨d, {
          window_isValid := Options.window_isValid valid
          plan_eq := laidOut
          fill := fill
          labels_nodup := labels
          arrays_nodup := arrays
          length_eq := length_eq.trans (length_sealed _)
          bank := resolution_eq ▸ hbanks
          labels_eq := resolution_eq ▸ rfl
          arrays_eq := resolution_eq ▸ rfl
          mem_used := fun op => by
            rw [Image.mem_used_ofEncoded, Context.pieces_of_encodeBanks written] }⟩

end Gamebook.Memory
