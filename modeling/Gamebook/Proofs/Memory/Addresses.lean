import Gamebook.Proofs.Memory.Capacity

/-!
# What addresses point at

A label names what follows it. Its place is fixed before it is known whether what follows still fits
in the bank, and it moves along when that goes to the next one; so in the end the label lies where
the first bytes of the next instruction are written (`Placed.label_writtenAt`). The elements of an
array lie one after the other from its address on (`Placed.array_bytes`). The three bytes of an
operand that refers to a label or an element are the address it was found to have.

`WrittenAt` says which bytes were written for an instruction and where. It does not go by what the
bytes look like: what stands before them in the banks is the part of the program that stands before
the instruction, and the offset is the number of bytes that this takes in the bank. So there is only
one such place (`WrittenAt.unique`).
-/

namespace Gamebook.Memory

/-- The address that three bytes stand for, the low byte of the word first. -/
def Address.ofBytes? : List UInt8 → Option Address
  | [bank, low, high] => some ⟨bank.toNat, low.toNat + 256 * high.toNat⟩
  | _ => none

theorem Address.ofBytes?_bytes {a : Address} (bank_lt : a.bank < 256)
    (address_lt : a.address < 65536) : Address.ofBytes? a.bytes = some a := by
  have low : a.address.toUInt8.toNat = a.address % 256 := rfl
  have high : (a.address / 256).toUInt8.toNat = a.address / 256 := toNat_toUInt8 (by omega)
  simp only [Address.bytes, wordBytes, Address.ofBytes?, toNat_toUInt8 bank_lt, low, high]
  rw [Nat.mod_add_div]

/-- The bytes written for the instruction `i` that follows `pre` in the program begin with `bytes`,
at `place`: the banks hold `pre` up to there, and then `i` or, if it is a text that was cut, the
first part of it. The place is the bank where this is, behind the bytes of what lies before it in
the bank; and there the bytes are found in the image. -/
structure WrittenAt (o : Options) (symbols : Symbol.Table) (code : List Instruction) (image : Image)
    (pre : List Instruction) (i : Instruction) (place : Place) (bytes : List UInt8) : Prop where
  laidOut : ∃ front b₁ j b₂ back,
    layout o code = .ok (sealed (front ++ (b₁ ++ j :: b₂) :: back)) ∧
    Spread o.sliceText pre (front ++ [b₁]) ∧ j.Begins i ∧
    place = ⟨front.length, codeSize b₁⟩ ∧
    (resolution o symbols code).encode o place.bank (.item j) = .ok bytes
  written : ∃ bank front back, image.banks[place.bank]? = some bank ∧
    bank.bytes = front ++ bytes ++ back ∧ place.offset = front.length

theorem WrittenAt.ne_nil {o : Options} {symbols : Symbol.Table} {code : List Instruction}
    {image : Image} {pre : List Instruction} {i : Instruction} {place : Place} {bytes : List UInt8}
    (h : WrittenAt o symbols code image pre i place bytes) (hi : i.isLabel = false) :
    bytes ≠ [] := by
  obtain ⟨_, _, j, _, _, -, -, hj, -, encoded⟩ := h.laidOut
  have hj : j.isLabel = false := by
    rcases hj with rfl | ⟨head, tail, -, rfl, -⟩
    · exact hi
    · rfl
  rw [← List.length_pos_iff, Context.length_encode encoded]
  exact size_pos hj

/-- There is one place only where the instruction behind `pre` is written. -/
theorem WrittenAt.unique {o : Options} {symbols : Symbol.Table} {code : List Instruction}
    {image : Image} {pre : List Instruction} {i : Instruction} {place place' : Place}
    {bytes bytes' : List UInt8} (h : WrittenAt o symbols code image pre i place bytes)
    (h' : WrittenAt o symbols code image pre i place' bytes') :
    place = place' ∧ bytes = bytes' := by
  obtain ⟨front, b₁, j, b₂, back, laidOut, before, -, rfl, encoded⟩ := h.laidOut
  obtain ⟨front', c₁, k, c₂, back', laidOut', before', -, rfl, encoded'⟩ := h'.laidOut
  have same := sealed_injective (Except.ok.inj (laidOut.symm.trans laidOut'))
  obtain ⟨rfl, rfl, rfl⟩ := before.eq_of_banks before' same
  exact ⟨rfl, Except.ok.inj (encoded.symm.trans encoded')⟩

/-- The bytes of the operand with number `n`, among those of an instruction. -/
def operandSlice (op : Opcode) (n : Nat) (bytes : List UInt8) : List UInt8 :=
  (bytes.drop (1 + shapesSize (op.operands.take n))).take
    ((op.operands[n]?.map OperandShape.size).getD 0)

namespace Context

variable {c : Context} {op : Opcode} {shape : OperandShape} {y : List UInt8}

theorem operand_label_eq_ok {name : String} (h : c.operand op shape (.label name) = .ok y) :
    ∃ a, c.labels.lookup name = some a ∧ y = a.bytes := by
  cases shape with
  | address =>
    simp only [operand] at h
    split at h
    · next a ha => exact ⟨a, ha, (Except.ok.inj h).symm⟩
    · simp at h
  | _ => simp [operand] at h

theorem operand_element_eq_ok {e : Element} (h : c.operand op shape (.element e) = .ok y) :
    ∃ a length index, c.arrays.lookup e.array = some (a, length) ∧
      e.index.eval c.symbols.value? = .ok index ∧ 0 ≤ index.toInt ∧ index.toInt.toNat < length ∧
      y = Address.bytes ⟨a.bank, a.address + index.toInt.toNat⟩ := by
  cases shape with
  | address =>
    obtain ⟨b, hb, hy⟩ := bind_eq_ok.mp h
    obtain rfl := Except.ok.inj hy
    unfold element at hb
    split at hb
    · simp at hb
    · next a length ha =>
      split at hb
      · simp at hb
      · next index hindex =>
        split at hb
        · next within =>
          obtain rfl := Except.ok.inj hb
          exact ⟨a, length, index, ha, hindex, within.1, within.2, rfl⟩
        · simp at hb
  | _ => simp [operand] at h

/-- The bytes of an operand are found behind those of the operands before it. -/
theorem slice_operands {xs : List (OperandShape × Operand)} {ys : List (List UInt8)} {n : Nat}
    {x : OperandShape × Operand}
    (h : List.Forall₂ (fun x y => c.operand op x.1 x.2 = .ok y) xs ys) (hx : xs[n]? = some x) :
    c.operand op x.1 x.2 =
      .ok ((ys.flatten.drop (shapesSize ((xs.take n).map (·.1)))).take x.1.size) := by
  induction h generalizing n with
  | nil => simp at hx
  | @cons z y xs ys hy hys ih =>
    rw [List.flatten_cons]
    cases n with
    | zero =>
      obtain rfl : z = x := by simpa using hx
      simp [← length_operand hy, hy]
    | succ n =>
      rw [ih hx, List.take_succ_cons, List.map_cons, shapesSize_cons, ← length_operand hy,
        List.drop_length_add_append]

theorem operandSlice_of_encode {o : Options} {bank n : Nat} {xs : List Operand} {x : Operand}
    {bytes : List UInt8} (h : c.encode o bank (.item (.code op xs)) = .ok bytes)
    (hx : xs[n]? = some x) :
    ∃ shape, c.operand op shape x = .ok (operandSlice op n bytes) := by
  obtain ⟨same, ys, rfl, hys⟩ := encode_code_eq_ok h
  have n_lt : n < op.operands.length := same ▸ (List.getElem?_eq_some_iff.mp hx).1
  have hzip : (op.operands.zip xs)[n]? = some (op.operands[n], x) := by
    rw [List.getElem?_zip_eq_some]
    exact ⟨List.getElem?_eq_getElem n_lt, hx⟩
  have shapes : ((op.operands.zip xs).take n).map (·.1) = op.operands.take n := by
    rw [List.map_take, List.map_fst_zip same.le]
  refine ⟨op.operands[n], ?_⟩
  rw [slice_operands hys hzip, shapes, operandSlice, Nat.add_comm, List.drop_succ_cons,
    List.getElem?_eq_getElem n_lt]
  rfl

end Context

namespace Placed

variable {o : Options} {symbols : Symbol.Table} {code : List Instruction} {image : Image}
  {d : Draft} {front back : List (List Instruction)} {pre b₁ b₂ : List Instruction}
  {i j : Instruction}

/-- An instruction of the program lies in the banks behind what stands before it. -/
theorem locate (h : Placed o symbols code image d) {post : List Instruction}
    (hcode : code = pre ++ i :: post) :
    ∃ front b₁ j b₂ back, d.banks = front ++ (b₁ ++ j :: b₂) :: back ∧
      Spread o.sliceText pre (front ++ [b₁]) ∧ j.Begins i ∧
      ((∀ t, i ≠ .text t) → Spread o.sliceText post (b₂ :: back)) := by
  have spread := h.spread
  rw [hcode] at spread
  exact spread.locate

theorem getElem?_banks (hd : d.banks = front ++ (b₁ ++ j :: b₂) :: back) :
    d.banks[front.length]? = some (b₁ ++ j :: b₂) := by
  rw [hd]
  simp

/-- The bytes of what lies in a bank stand behind as many bytes as lie before it. -/
theorem piece_bytes (h : Placed o symbols code image d)
    (hd : d.banks = front ++ (b₁ ++ j :: b₂) :: back) :
    ∃ bank head bytes tail, image.banks[front.length]? = some bank ∧
      bank.window = o.window front.length ∧ bank.bytes = head ++ bytes ++ tail ∧
      head.length = codeSize b₁ ∧
      (resolution o symbols code).encode o front.length (.item j) = .ok bytes := by
  obtain ⟨body, hbody, writes⟩ := h.bank_eq (getElem?_banks hd)
  rw [List.map_append, List.map_cons] at writes
  obtain ⟨head, bytes, tail, rfl, length_head, encoded⟩ := writes.piece
  rw [totalSize_map_item] at length_head
  exact ⟨_, head, bytes, _, hbody, rfl, List.append_assoc _ _ _, length_head, encoded⟩

/-- What lies in the banks behind `pre` is written there. -/
theorem writtenAt (h : Placed o symbols code image d)
    (hd : d.banks = front ++ (b₁ ++ j :: b₂) :: back)
    (hpre : Spread o.sliceText pre (front ++ [b₁])) (hj : j.Begins i) :
    ∃ bytes, WrittenAt o symbols code image pre i ⟨front.length, codeSize b₁⟩ bytes := by
  obtain ⟨bank, head, bytes, tail, hbank, -, hbytes, length_head, encoded⟩ := h.piece_bytes hd
  exact ⟨bytes, ⟨front, b₁, j, b₂, back, hd ▸ h.layout_eq, hpre, hj, rfl, encoded⟩,
    bank, head, tail, hbank, hbytes, length_head.symm⟩

/-- A label lies where the next instruction that is none is written. -/
theorem label_writtenAt (h : Placed o symbols code image d) {name : String}
    {labels post : List Instruction} (hcode : code = pre ++ .label name :: (labels ++ i :: post))
    (hlabels : ∀ m ∈ labels, m.isLabel = true) :
    ∃ place bytes, (resolution o symbols code).labels.lookup name = some (place.address o) ∧
      WrittenAt o symbols code image (pre ++ .label name :: labels) i place bytes := by
  obtain ⟨front, b₁, j, b₂, back, hd, hpre, hj, hrest⟩ := h.locate hcode
  obtain rfl := hj.eq_of_ne_text (by simp)
  -- a bank that is followed by another one does not end with a label
  have tight (more : back ≠ []) : Tight b₂ := by
    have not_last : front.length + 1 < d.banks.length := by
      rw [hd, List.length_append, List.length_cons]
      have := List.length_pos_iff.mpr more
      omega
    exact (h.sound.tight (getElem?_banks hd) not_last).of_label rfl
  obtain ⟨k, b₃, rfl, hk⟩ := (hrest (by simp)).behind_labels hlabels tight
  have lookup := h.lookup_label hd
  have hd' : d.banks = front ++ ((b₁ ++ .label name :: labels) ++ k :: b₃) :: back := by
    rw [hd, List.append_assoc, List.cons_append]
  obtain ⟨bytes, written⟩ := h.writtenAt hd' (hpre.join (.single _)) hk
  refine ⟨_, bytes, lookup, ?_⟩
  rwa [codeSize_append, codeSize_cons, codeSize_of_isLabel hlabels] at written

/-- An instruction that is not a text is written as a whole. -/
theorem instruction_writtenAt (h : Placed o symbols code image d) {post : List Instruction}
    (hcode : code = pre ++ i :: post) (hi : ∀ t, i ≠ .text t) :
    ∃ place bytes, WrittenAt o symbols code image pre i place bytes ∧
      (resolution o symbols code).encode o place.bank (.item i) = .ok bytes := by
  obtain ⟨front, b₁, j, b₂, back, hd, hpre, hj, -⟩ := h.locate hcode
  obtain rfl := hj.eq_of_ne_text hi
  obtain ⟨bytes, written⟩ := h.writtenAt hd hpre hj
  obtain ⟨_, _, k, _, _, -, -, hk, -, encoded⟩ := written.laidOut
  obtain rfl := hk.eq_of_ne_text hi
  exact ⟨_, bytes, written, encoded⟩

/-- The elements of an array are the bytes from its address on. -/
theorem array_bytes (h : Placed o symbols code image d) {name : String} {data : List UInt8}
    {post : List Instruction} (hcode : code = pre ++ .array name data :: post) :
    ∃ a bank, (resolution o symbols code).arrays.lookup name = some (a, data.length) ∧
      image.banks[a.bank]? = some bank ∧ bank.window.base ≤ a.address ∧
      ∀ n x, data[n]? = some x → bank.bytes[a.address - bank.window.base + n]? = some x := by
  obtain ⟨front, b₁, j, b₂, back, hd, hpre, hj, -⟩ := h.locate hcode
  obtain rfl := hj.eq_of_ne_text (by simp)
  obtain ⟨bank, head, bytes, tail, hbank, window_eq, hbytes, length_head, encoded⟩ :=
    h.piece_bytes hd
  obtain rfl := Except.ok.inj encoded
  refine ⟨_, bank, h.lookup_array hd, hbank, window_eq ▸ Nat.le_add_right _ _, fun n x hx => ?_⟩
  have n_lt : n < data.length := (List.getElem?_eq_some_iff.mp hx).1
  rw [hbytes, window_eq]
  dsimp only [Place.address]
  rw [show (o.window front.length).base + (codeSize b₁ + 2) - (o.window front.length).base + n =
    head.length + (n + 2) by omega, List.append_assoc,
    List.getElem?_append_right (Nat.le_add_right _ _), Nat.add_sub_cancel_left]
  simp [List.getElem?_append_left n_lt, hx]

theorem ofBytes?_label (h : Placed o symbols code image d) {name : String} {a : Address}
    (ha : (resolution o symbols code).labels.lookup name = some a) :
    Address.ofBytes? a.bytes = some a := by
  have count_le := h.count_bounds.2
  obtain ⟨bank_lt, -, address_lt⟩ := h.label_bounds (mem_of_lookup ha)
  have end_le := Window.end_le (h.window_isValid a.bank)
  exact Address.ofBytes?_bytes (by omega) (by omega)

theorem ofBytes?_element (h : Placed o symbols code image d) {name : String} {a : Address}
    {length n : Nat} (ha : (resolution o symbols code).arrays.lookup name = some (a, length))
    (hn : n < length) :
    Address.ofBytes? (Address.bytes ⟨a.bank, a.address + n⟩) = some ⟨a.bank, a.address + n⟩ := by
  have count_le := h.count_bounds.2
  obtain ⟨bank_lt, -, address_lt⟩ := h.array_bounds (mem_of_lookup ha)
  have end_le := Window.end_le (h.window_isValid a.bank)
  exact Address.ofBytes?_bytes (by dsimp only; omega) (by dsimp only; omega)

end Placed

/-- Addresses point at what they name. A label, made up or not, has the address of the first byte
written for the first instruction behind it that is no label, and the three bytes of an operand
that names it are that address. The elements of an array are the bytes from its address on, and the
three bytes of an operand that names an element are its address. What stands behind a part of the
program is written in one place only. -/
theorem addresses_point_at_named {o : Options} {symbols : Symbol.Table} {code : List Instruction}
    {log : Log} {image : Image} (h : generate o symbols code = (log, .ok image)) :
    (∀ pre name labels i post, code = pre ++ .label name :: (labels ++ i :: post) →
      (∀ m ∈ labels, m.isLabel = true) → i.isLabel = false →
      ∃ place bytes, (resolution o symbols code).labels.lookup name = some (place.address o) ∧
        (Symbol.isReserved name = false → (name, place.address o) ∈ image.labels) ∧ bytes ≠ [] ∧
        WrittenAt o symbols code image (pre ++ .label name :: labels) i place bytes) ∧
    (∀ pre op xs post n name, code = pre ++ .code op xs :: post → xs[n]? = some (.label name) →
      ∃ place bytes a, WrittenAt o symbols code image pre (.code op xs) place bytes ∧
        (resolution o symbols code).labels.lookup name = some a ∧
        Address.ofBytes? (operandSlice op n bytes) = some a) ∧
    (∀ pre name data post, code = pre ++ .array name data :: post →
      ∃ a bank, (resolution o symbols code).arrays.lookup name = some (a, data.length) ∧
        (name, a) ∈ image.arrays ∧ image.banks[a.bank]? = some bank ∧
        bank.window.base ≤ a.address ∧
        ∀ n x, data[n]? = some x → bank.bytes[a.address - bank.window.base + n]? = some x) ∧
    (∀ pre op xs post n e, code = pre ++ .code op xs :: post → xs[n]? = some (.element e) →
      ∃ place bytes a length index,
        WrittenAt o symbols code image pre (.code op xs) place bytes ∧
        (resolution o symbols code).arrays.lookup e.array = some (a, length) ∧
        e.index.eval symbols.value? = .ok index ∧ 0 ≤ index.toInt ∧ index.toInt.toNat < length ∧
        Address.ofBytes? (operandSlice op n bytes) =
          some ⟨a.bank, a.address + index.toInt.toNat⟩) ∧
    ∀ pre i place bytes place' bytes', WrittenAt o symbols code image pre i place bytes →
      WrittenAt o symbols code image pre i place' bytes' → place = place' ∧ bytes = bytes' := by
  obtain ⟨d, h⟩ := generate_eq_ok h
  refine ⟨fun pre name labels i post hcode hlabels hi => ?_,
    fun pre op xs post n name hcode hx => ?_, fun pre name data post hcode => ?_,
    fun pre op xs post n e hcode hx => ?_, fun pre i place bytes place' bytes' h h' => h.unique h'⟩
  · obtain ⟨place, bytes, lookup, written⟩ := h.label_writtenAt hcode hlabels
    refine ⟨place, bytes, lookup, fun visible => ?_, written.ne_nil hi, written⟩
    rw [h.labels_eq, Image.byName, List.mem_mergeSort, List.mem_filter]
    exact ⟨mem_of_lookup lookup, by simp [visible]⟩
  · obtain ⟨place, bytes, written, encoded⟩ := h.instruction_writtenAt hcode (by simp)
    obtain ⟨shape, hslice⟩ := Context.operandSlice_of_encode encoded hx
    obtain ⟨a, lookup, hbytes⟩ := Context.operand_label_eq_ok hslice
    exact ⟨place, bytes, a, written, lookup, hbytes ▸ h.ofBytes?_label lookup⟩
  · obtain ⟨a, bank, lookup, hbank, base_le, hbytes⟩ := h.array_bytes hcode
    refine ⟨a, bank, lookup, ?_, hbank, base_le, hbytes⟩
    rw [h.arrays_eq, Image.byName, List.mem_mergeSort]
    exact List.mem_map.mpr ⟨_, mem_of_lookup lookup, rfl⟩
  · obtain ⟨place, bytes, written, encoded⟩ := h.instruction_writtenAt hcode (by simp)
    obtain ⟨shape, hslice⟩ := Context.operandSlice_of_encode encoded hx
    obtain ⟨a, length, index, lookup, heval, nonneg, lt, hbytes⟩ :=
      Context.operand_element_eq_ok hslice
    exact ⟨place, bytes, a, length, index, written, lookup, heval, nonneg, lt,
      hbytes ▸ h.ofBytes?_element lookup lt⟩

theorem addresses_point_at_named_readingLoop :
    ∃ log image, generate narrowWindows .empty readingLoop = (log, .ok image) ∧
      (resolution narrowWindows .empty readingLoop).labels.lookup "again" = some ⟨1, 0x8000⟩ ∧
      (∃ bytes, bytes ≠ [] ∧
        WrittenAt narrowWindows .empty readingLoop image [.op .CLEAR, .label "again"]
          (.code .PUSH_A [.element ⟨"data", .value 1⟩]) ⟨1, 0⟩ bytes ∧
        Address.ofBytes? (operandSlice .PUSH_A 0 bytes) = some ⟨1, 0x800F⟩ ∧
        ∀ place bytes', WrittenAt narrowWindows .empty readingLoop image
          [.op .CLEAR, .label "again"] (.code .PUSH_A [.element ⟨"data", .value 1⟩]) place bytes' →
            place = ⟨1, 0⟩) ∧
      (∃ place bytes, WrittenAt narrowWindows .empty readingLoop image
          [.op .CLEAR, .label "again", .code .PUSH_A [.element ⟨"data", .value 1⟩]]
          (.jump .GOTO "again") place bytes ∧
        Address.ofBytes? (operandSlice .GOTO 0 bytes) = some ⟨1, 0x8000⟩) ∧
      (resolution narrowWindows .empty readingLoop).arrays.lookup "data" =
        some (⟨1, 0x800E⟩, 2) ∧
      ∃ bank, image.banks[1]? = some bank ∧ bank.window.base ≤ 0x800E ∧
        bank.bytes[0x800E - bank.window.base + 1]? = some 7 := by
  obtain ⟨log, image, h, -⟩ := generate_readingLoop
  have again : (resolution narrowWindows .empty readingLoop).labels.lookup "again" =
      some ⟨1, 0x8000⟩ := by decide +kernel
  have array : (resolution narrowWindows .empty readingLoop).arrays.lookup "data" =
      some (⟨1, 0x800E⟩, 2) := by decide +kernel
  obtain ⟨atLabel, jumps, atArray, elements, unique⟩ := addresses_point_at_named h
  refine ⟨log, image, h, again, ?_, ?_, array, ?_⟩
  · obtain ⟨place, bytes, lookup, -, ne_nil, written⟩ := atLabel [.op .CLEAR] "again" []
      (.code .PUSH_A [.element ⟨"data", .value 1⟩])
      [.jump .GOTO "again", .text [72, 105], .array "data" [6, 7]] rfl (by simp) rfl
    have here : place = ⟨1, 0⟩ := by
      obtain ⟨bank, address⟩ := Address.mk.inj (Option.some.inj (again.symm.trans lookup))
      have base : (narrowWindows.window place.bank).base = 0x8000 := bank ▸ rfl
      obtain ⟨k, n⟩ := place
      simp only [Place.mk.injEq]
      dsimp only at bank address base
      omega
    subst here
    obtain ⟨place, bytes', a, length, index, written', lookup, heval, -, -, hbytes⟩ :=
      elements [.op .CLEAR, .label "again"] .PUSH_A [.element ⟨"data", .value 1⟩]
        [.jump .GOTO "again", .text [72, 105], .array "data" [6, 7]] 0 ⟨"data", .value 1⟩ rfl rfl
    obtain ⟨-, rfl⟩ := unique _ _ _ _ _ _ written written'
    obtain ⟨rfl, rfl⟩ := Prod.mk.inj (Option.some.inj (array.symm.trans lookup))
    obtain rfl : 1 = index := Except.ok.inj heval
    exact ⟨bytes, ne_nil, written, hbytes, fun place bytes' other =>
      (unique _ _ _ _ _ _ other written).1⟩
  · obtain ⟨place, bytes, a, written, lookup, hbytes⟩ := jumps
      [.op .CLEAR, .label "again", .code .PUSH_A [.element ⟨"data", .value 1⟩]] .GOTO
      [.label "again"] [.text [72, 105], .array "data" [6, 7]] 0 "again" rfl rfl
    obtain rfl := Option.some.inj (again.symm.trans lookup)
    exact ⟨place, bytes, written, hbytes⟩
  · obtain ⟨a, bank, lookup, -, hbank, base_le, values⟩ := atArray
      [.op .CLEAR, .label "again", .code .PUSH_A [.element ⟨"data", .value 1⟩],
        .jump .GOTO "again", .text [72, 105]] "data" [6, 7] [] rfl
    obtain ⟨rfl, -⟩ := Prod.mk.inj (Option.some.inj (array.symm.trans lookup))
    exact ⟨bank, hbank, base_le, values 1 7 rfl⟩

end Gamebook.Memory
