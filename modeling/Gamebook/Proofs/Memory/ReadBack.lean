import Gamebook.Proofs.Bytecode.Disassembly
import Gamebook.Proofs.Memory.Capacity

/-!
# Reading an image back

Nothing is lost, put elsewhere or made up on the way to memory. The decoder of
`Gamebook.Proofs.Bytecode.Disassembly` reads every bank to its last byte. What it finds there, once
the jumps between the banks are taken out (`withoutBridges`), is the program without its labels, in
order and with the bytes of the operands in place of the operands (`Context.Resolves`); only a text
may come in parts, each of which but the last ends its bank (`Reassembles`).

Which bytes an operand has is said for each kind of operand (`Context.Becomes`): the number of a
variable, the value of a constant, the bank and the address of what is named. That these numbers are
the numbers of the program, and not what is left of them in a byte or two, rests on where labels and
arrays can lie (`Placed.bounded`).

`decode_writes` is about one bank and `Spread.reassembles` about how the banks go together.
-/

namespace Gamebook

/-- Whether the bytes of the instruction show where it ends: texts do not hold the byte that ends
them, the length of an array is a byte, and the opcodes of texts and arrays are not used for
anything else. -/
def Instruction.Readable : Instruction → Prop
  | .label _ => True
  | .text bytes => 0 ∉ bytes
  | .array _ bytes => bytes.length ≤ 255
  | .code opcode _ => opcode ≠ .TEXT ∧ opcode ≠ .DATA

instance (i : Instruction) : Decidable i.Readable :=
  match i with
  | .label _ => inferInstanceAs (Decidable True)
  | .text bytes => inferInstanceAs (Decidable (0 ∉ bytes))
  | .array _ bytes => inferInstanceAs (Decidable (bytes.length ≤ 255))
  | .code opcode _ => inferInstanceAs (Decidable (opcode ≠ .TEXT ∧ opcode ≠ .DATA))

/-- Whether it is a jump like those between banks. -/
def Decoded.isGoto : Decoded → Bool
  | .code opcode _ => opcode = .GOTO
  | _ => false

namespace Memory

/-! ## Operands -/

/-- The number of the variable that others are counted from: it is written, or a name has it. -/
inductive Context.Counts (c : Context) : VariableBase → UInt8 → Prop
  | slot (number : UInt8) : c.Counts (.slot number) number
  | named {name : String} {number : UInt8} :
    c.symbols.slot? name = some number → c.Counts (.named name) number

/-- The operand in memory. A byte may be written as it is, or be the number of a variable or the
value of a constant. Words have their low byte first. An address is the number of a bank and a word, for
an element of an array as many bytes behind the first element as its index says. -/
inductive Context.Becomes (c : Context) : OperandShape → Operand → List UInt8 → Prop
  | literal {shape : OperandShape} (b : UInt8) :
    shape = .byte ∨ shape = .slot → c.Becomes shape (.literal b) [b]
  | numbered {shape : OperandShape} {v : Variable} {base b : UInt8} :
    shape = .byte ∨ shape = .slot → c.Counts v.base base →
    b.toNat = base.toNat + v.displacement.toNat → c.Becomes shape (.variable v) [b]
  | constant {e : Constant.Expr} {width : Constant.Width} {value : Int64} {b : UInt8} :
    e.eval c.symbols.value? = .ok value → value.toInt = b.toNat →
      c.Becomes .byte (.constant e width) [b]
  | word {w : UInt16} {low high : UInt8} :
    low.toNat + 256 * high.toNat = w.toNat → c.Becomes .word (.word w) [low, high]
  | wideLiteral (b : UInt8) : c.Becomes .word (.literal b) [b, 0]
  | wideConstant {e : Constant.Expr} {width : Constant.Width} {value : Int64} {low high : UInt8} :
    e.eval c.symbols.value? = .ok value → value.toInt = low.toNat + 256 * high.toNat →
      c.Becomes .word (.constant e width) [low, high]
  | label {name : String} {a : Address} {bank low high : UInt8} :
    c.labels.lookup name = some a → bank.toNat = a.bank →
    low.toNat + 256 * high.toNat = a.address → c.Becomes .address (.label name) [bank, low, high]
  | element {e : Element} {first : Address} {length : Nat} {index : Int64}
      {bank low high : UInt8} :
    c.arrays.lookup e.array = some (first, length) → e.index.eval c.symbols.value? = .ok index →
    0 ≤ index.toInt → index.toInt < length → bank.toNat = first.bank →
    low.toNat + 256 * high.toNat = first.address + index.toInt.toNat →
      c.Becomes .address (.element e) [bank, low, high]

/-- Banks have numbers that a byte can hold, and addresses are words. -/
structure Context.Bounded (c : Context) : Prop where
  label : ∀ name a, c.labels.lookup name = some a → a.bank < 256 ∧ a.address < 65536
  array : ∀ name a length, c.arrays.lookup name = some (a, length) →
    a.bank < 256 ∧ a.address + length ≤ 65536

theorem Placed.bounded {o : Options} {symbols : Symbol.Table} {code : List Instruction}
    {image : Image} {d : Draft} (h : Placed o symbols code image d) :
    (resolution o symbols code).Bounded where
  label name a ha := by
    have count_le := h.count_bounds.2
    obtain ⟨bank_lt, -, address_lt⟩ := h.label_bounds (mem_of_lookup ha)
    have end_le := Window.end_le (h.window_isValid a.bank)
    omega
  array name a length ha := by
    have count_le := h.count_bounds.2
    obtain ⟨bank_lt, -, address_lt⟩ := h.array_bounds (mem_of_lookup ha)
    have end_le := Window.end_le (h.window_isValid a.bank)
    omega

namespace Context

variable {c : Context} {shape : OperandShape} {x : Operand} {y : List UInt8}

theorem wordBytes_eq {n : Nat} {low high : UInt8} (h : low.toNat + 256 * high.toNat = n) :
    wordBytes n = [low, high] := by
  have low_lt := low.toNat_lt
  have high_lt := high.toNat_lt
  have low_eq : n.toUInt8 = low := UInt8.toNat_inj.mp (by
    change n % 256 = low.toNat
    omega)
  have high_eq : (n / 256).toUInt8 = high := UInt8.toNat_inj.mp (by
    change n / 256 % 256 = high.toNat
    omega)
  rw [wordBytes, low_eq, high_eq]

theorem exists_wordBytes {n : Nat} (h : n < 65536) :
    ∃ low high : UInt8, low.toNat + 256 * high.toNat = n ∧ wordBytes n = [low, high] := by
  refine ⟨n.toUInt8, (n / 256).toUInt8, ?_, rfl⟩
  change n % 256 + 256 * (n / 256 % 256) = n
  omega

theorem baseSlot_eq_ok {base : VariableBase} {number : UInt8} :
    c.baseSlot base = .ok number ↔ c.Counts base number := by
  cases base with
  | slot n =>
    constructor
    · intro h
      obtain rfl := Except.ok.inj h
      exact .slot n
    · rintro ⟨⟩
      rfl
  | named name =>
    constructor
    · intro h
      simp only [baseSlot] at h
      split at h
      · next found =>
        obtain rfl := Except.ok.inj h
        exact .named found
      · contradiction
    · rintro (_ | found)
      simp only [baseSlot, found]

theorem slot_eq_ok {v : Variable} {b : UInt8} : c.slot v = .ok b ↔
    ∃ base, c.Counts v.base base ∧ b.toNat = base.toNat + v.displacement.toNat := by
  rw [slot, bind_eq_ok]
  refine exists_congr fun base => ?_
  rw [baseSlot_eq_ok]
  refine and_congr_right fun _ => ?_
  dsimp only
  have b_lt := b.toNat_lt
  split
  · next beyond => exact ⟨by rintro ⟨⟩, fun h => by omega⟩
  · next within =>
    rw [Except.ok.injEq, ← UInt8.toNat_inj, toNat_toUInt8 (by omega), eq_comm]

theorem constant_eq_ok {width : Constant.Width} {e : Constant.Expr} {n : Nat} :
    c.constant width e = .ok n ↔
      ∃ value, e.eval c.symbols.value? = .ok value ∧ value.toInt = n ∧ n ≤ width.max := by
  unfold constant Constant.Expr.evalAs
  cases e.eval c.symbols.value? with
  | error error => simp [bind, Except.bind]
  | ok value =>
    have max_lt : width.max < 65536 := by cases width <;> decide
    simp only [bind, Except.bind, Constant.Width.check, Except.ok.injEq, exists_eq_left']
    by_cases fits : 0 ≤ value.toInt ∧ value.toInt ≤ width.max
    · simp only [if_pos fits, Except.ok.injEq]
      rw [toNat_toUInt16 (by omega)]
      omega
    · simp only [if_neg fits, reduceCtorEq, false_iff]
      omega

theorem element_eq_ok {e : Element} {a : Address} : c.element e = .ok a ↔
    ∃ first length index, c.arrays.lookup e.array = some (first, length) ∧
      e.index.eval c.symbols.value? = .ok index ∧ 0 ≤ index.toInt ∧ index.toInt < length ∧
      a = ⟨first.bank, first.address + index.toInt.toNat⟩ := by
  constructor
  · intro h
    unfold element at h
    split at h
    · contradiction
    · next first length found =>
      split at h
      · contradiction
      · next index eval =>
        split at h
        · next within =>
          obtain rfl := Except.ok.inj h
          exact ⟨first, length, index, found, eval, within.1, by omega, rfl⟩
        · contradiction
  · rintro ⟨first, length, index, found, eval, nonneg, lt, rfl⟩
    simp only [element, found, eval]
    rw [if_pos ⟨nonneg, by omega⟩]

theorem bytes_eq {a : Address} {bank low high : UInt8} (bank_eq : bank.toNat = a.bank)
    (address_eq : low.toNat + 256 * high.toNat = a.address) : a.bytes = [bank, low, high] := by
  have same : a.bank.toUInt8 = bank := by
    rw [← bank_eq]
    exact UInt8.toNat_inj.mp (toNat_toUInt8 bank.toNat_lt)
  rw [Address.bytes, wordBytes_eq address_eq, same]

theorem exists_bytes {a : Address} (bank_lt : a.bank < 256) (address_lt : a.address < 65536) :
    ∃ bank low high : UInt8, bank.toNat = a.bank ∧ low.toNat + 256 * high.toNat = a.address ∧
      a.bytes = [bank, low, high] := by
  obtain ⟨low, high, address_eq, bytes⟩ := exists_wordBytes address_lt
  exact ⟨a.bank.toUInt8, low, high, toNat_toUInt8 bank_lt, address_eq, by rw [Address.bytes, bytes]⟩

/-- The bytes are those that are written. -/
theorem Becomes.operand_eq (h : c.Becomes shape x y) (op : Opcode) :
    c.operand op shape x = .ok y := by
  cases h with
  | literal b forms => rcases forms with rfl | rfl <;> rfl
  | numbered forms base b =>
    have slot := slot_eq_ok.mpr ⟨_, base, b⟩
    rcases forms with rfl | rfl
    · exact bind_eq_ok.mpr ⟨_, slot, rfl⟩
    · exact bind_eq_ok.mpr ⟨_, slot, rfl⟩
  | @constant e width value b eval fits =>
    have b_lt := b.toNat_lt
    refine bind_eq_ok.mpr ⟨b.toNat, constant_eq_ok.mpr ⟨value, eval, fits, ?_⟩, ?_⟩
    · change (b.toNat : Int) ≤ 255
      omega
    · rw [UInt8.toNat_inj.mp (toNat_toUInt8 b_lt)]
      rfl
  | word value => exact congrArg Except.ok (wordBytes_eq value)
  | wideLiteral b => exact congrArg Except.ok (wordBytes_eq rfl)
  | @wideConstant e width value low high eval fits =>
    have low_lt := low.toNat_lt
    have high_lt := high.toNat_lt
    refine bind_eq_ok.mpr ⟨low.toNat + 256 * high.toNat,
      constant_eq_ok.mpr ⟨value, eval, by rw [fits]; rfl, ?_⟩,
      congrArg Except.ok (wordBytes_eq rfl)⟩
    change ((low.toNat + 256 * high.toNat : Nat) : Int) ≤ 65535
    omega
  | label found bank address =>
    simp only [operand, found]
    exact congrArg Except.ok (bytes_eq bank address)
  | element found index nonneg lt bank address =>
    refine bind_eq_ok.mpr ⟨_, element_eq_ok.mpr ⟨_, _, _, found, index, nonneg, lt, rfl⟩, ?_⟩
    exact congrArg Except.ok (bytes_eq bank address)

/-- Nothing else is written. -/
theorem becomes_of_operand (bounded : c.Bounded) {op : Opcode}
    (h : c.operand op shape x = .ok y) : c.Becomes shape x y := by
  have numbered {v : Variable} (forms : shape = .byte ∨ shape = .slot)
      (h : (do return [← c.slot v]) = Except.ok y) : c.Becomes shape (.variable v) y := by
    obtain ⟨b, slot, last⟩ := bind_eq_ok.mp h
    obtain rfl := Except.ok.inj last
    obtain ⟨base, counts, b_eq⟩ := slot_eq_ok.mp slot
    exact .numbered forms counts b_eq
  unfold operand at h
  split at h
  · obtain rfl := Except.ok.inj h
    exact .literal _ (.inl rfl)
  · obtain rfl := Except.ok.inj h
    exact .literal _ (.inr rfl)
  · exact numbered (.inl rfl) h
  · exact numbered (.inr rfl) h
  · obtain ⟨n, constant, last⟩ := bind_eq_ok.mp h
    obtain rfl := Except.ok.inj last
    obtain ⟨value, eval, value_eq, le⟩ := constant_eq_ok.mp constant
    have le : (n : Int) ≤ 255 := le
    exact .constant eval (by rw [value_eq, toNat_toUInt8 (by omega)])
  · next w =>
    obtain ⟨low, high, value, bytes⟩ := exists_wordBytes w.toNat_lt
    obtain rfl := Except.ok.inj h
    rw [bytes]
    exact .word value
  · next b =>
    obtain rfl := Except.ok.inj h
    have wide : wordBytes b.toNat = [b, 0] := wordBytes_eq (Nat.add_zero _)
    rw [wide]
    exact .wideLiteral b
  · obtain ⟨n, constant, last⟩ := bind_eq_ok.mp h
    obtain rfl := Except.ok.inj last
    obtain ⟨value, eval, value_eq, le⟩ := constant_eq_ok.mp constant
    have le : (n : Int) ≤ 65535 := le
    obtain ⟨low, high, word, bytes⟩ := exists_wordBytes (n := n) (by omega)
    rw [bytes]
    exact .wideConstant eval (by rw [value_eq, ← word]; rfl)
  · split at h
    · next name _ a found =>
      obtain rfl := Except.ok.inj h
      obtain ⟨bank_lt, address_lt⟩ := bounded.label name a found
      obtain ⟨bank, low, high, bank_eq, address_eq, bytes⟩ := exists_bytes bank_lt address_lt
      rw [bytes]
      exact .label found bank_eq address_eq
    · contradiction
  · obtain ⟨a, element, last⟩ := bind_eq_ok.mp h
    obtain rfl := Except.ok.inj last
    obtain ⟨first, length, index, found, eval, nonneg, lt, rfl⟩ := element_eq_ok.mp element
    obtain ⟨bank_lt, end_le⟩ := bounded.array _ first length found
    obtain ⟨bank, low, high, bank_eq, address_eq, bytes⟩ :=
      exists_bytes (a := ⟨first.bank, first.address + index.toInt.toNat⟩) bank_lt
        (by dsimp only; omega)
    rw [bytes]
    exact .element found eval nonneg lt bank_eq address_eq
  · contradiction

end Context

/-- The instruction in memory: names are gone, and operands are the bytes they become. -/
inductive Context.Resolves (c : Context) : Instruction → Decoded → Prop
  | text (bytes : List UInt8) : c.Resolves (.text bytes) (.text bytes)
  | array (name : String) (bytes : List UInt8) : c.Resolves (.array name bytes) (.data bytes)
  | code {opcode : Opcode} {xs : List Operand} {ys : List (List UInt8)} :
    opcode.operands.length = xs.length →
    List.Forall₂ (fun x y => c.Becomes x.1 x.2 y) (opcode.operands.zip xs) ys →
      c.Resolves (.code opcode xs) (.code opcode ys)

/-- The banks without the last jump of each but the last. -/
def withoutBridges : List (List Decoded) → List (List Decoded)
  | [] => []
  | [b] => [b]
  | b :: c :: bs => (b.reverse.eraseP Decoded.isGoto).reverse :: withoutBridges (c :: bs)

/-- The banks one after the other are these instructions. If `slice` allows it, a text may come in
parts that are not empty, where a part that is not the last one ends its bank and the next part
begins the next bank. -/
inductive Reassembles (slice : Bool) : List (List Decoded) → List Decoded → Prop
  | done : Reassembles slice [] []
  | next {bs : List (List Decoded)} {ds : List Decoded} :
    Reassembles slice bs ds → Reassembles slice ([] :: bs) ds
  | whole {d : Decoded} {b ds : List Decoded} {bs : List (List Decoded)} :
    Reassembles slice (b :: bs) ds → Reassembles slice ((d :: b) :: bs) (d :: ds)
  | cut {head first rest : List UInt8} {b ds : List Decoded} {bs : List (List Decoded)} :
    slice = true → head ≠ [] → rest ≠ [] →
    Reassembles slice ((.text first :: b) :: bs) (.text rest :: ds) →
      Reassembles slice ([.text head] :: (.text first :: b) :: bs) (.text (head ++ rest) :: ds)

/-- Where no text may be cut, the banks one after the other are the instructions themselves. -/
theorem Reassembles.flatten_eq {bs : List (List Decoded)} {ds : List Decoded}
    (h : Reassembles false bs ds) : bs.flatten = ds := by
  induction h with
  | done => rfl
  | next _ ih => exact ih
  | whole _ ih => rw [← ih, List.flatten_cons, List.flatten_cons, List.cons_append]
  | cut sliced => simp at sliced

/-! ## One bank -/

section Bank

variable {c : Context} {o : Options} {bank : Nat} {i : Instruction} {bytes : List UInt8}

theorem Context.length_operands {opcode : Opcode} {xs : List Operand} {ys : List (List UInt8)}
    (same : opcode.operands.length = xs.length)
    (h : List.Forall₂ (fun x y => c.operand opcode x.1 x.2 = .ok y) (opcode.operands.zip xs) ys) :
    List.Forall₂ (fun shape y => y.length = shape.size) opcode.operands ys := by
  rw [← List.map_fst_zip same.le, List.forall₂_map_left_iff]
  exact h.imp fun x y hy => Context.length_operand hy

/-- The bytes of an instruction are read back, whatever follows them. -/
theorem decodeOne_encode (bounded : c.Bounded) (readable : i.Readable) (hi : i.isLabel = false)
    (h : c.encode o bank (.item i) = .ok bytes) :
    ∃ d, c.Resolves i d ∧ ∀ rest, decodeOne (bytes ++ rest) = some (d, rest) := by
  cases i with
  | label name => simp [Instruction.isLabel] at hi
  | text t =>
    obtain rfl := Except.ok.inj h
    exact ⟨_, .text t, decodeOne_text readable⟩
  | array name data =>
    obtain rfl := Except.ok.inj h
    exact ⟨_, .array name data, decodeOne_data readable⟩
  | code opcode xs =>
    obtain ⟨same, ys, rfl, hys⟩ := Context.encode_code_eq_ok h
    exact ⟨_, .code same (hys.imp fun _ _ => Context.becomes_of_operand bounded),
      decodeOne_code readable.1 readable.2 (Context.length_operands same hys)⟩

/-- The bytes of the instructions of a bank are read back in front of what can be decoded. -/
theorem decode_writes (bounded : c.Bounded) {b : List Instruction} (readable : ∀ i ∈ b, i.Readable)
    (h : c.Writes o bank (b.map .item) bytes) {rest : List UInt8} {ds : List Decoded}
    (hrest : decode rest = some ds) :
    ∃ found, List.Forall₂ c.Resolves (b.filter (!·.isLabel)) found ∧
      decode (bytes ++ rest) = some (found ++ ds) := by
  induction b generalizing bytes with
  | nil =>
    cases h
    exact ⟨[], .nil, hrest⟩
  | cons i b ih =>
    cases h with
    | @cons _ _ first others hfirst hothers =>
      obtain ⟨hi, hb⟩ := List.forall_mem_cons.mp readable
      obtain ⟨found, hfound, hdecode⟩ := ih hb hothers
      rw [List.append_assoc]
      cases label : i.isLabel with
      | true =>
        obtain rfl : first = [] := by
          rw [← List.length_eq_zero_iff, Context.length_encode hfirst]
          exact size_of_isLabel label
        exact ⟨found, by simpa [label] using hfound, hdecode⟩
      | false =>
        obtain ⟨d, hd, hone⟩ := decodeOne_encode bounded hi label hfirst
        refine ⟨d :: found, by simpa [label] using List.Forall₂.cons hd hfound, ?_⟩
        rw [decode_cons (hone _), hdecode]
        rfl

theorem decode_bridge (a : Address) :
    decode (Opcode.GOTO.code :: a.bytes) = some [.code .GOTO [a.bytes]] := by
  have length_eq : a.bytes.length = OperandShape.address.size := rfl
  have one := @decodeOne_code .GOTO [a.bytes] (by decide) (by decide) (.cons length_eq .nil) []
  rw [List.append_nil, List.flatten_singleton] at one
  rw [decode_cons one, decode_nil]
  rfl

end Bank

/-! ## All banks -/

/-- Parts of a readable text are readable. -/
theorem Spread.readable {slice : Bool} {code : List Instruction} {banks : List (List Instruction)}
    (h : Spread slice code banks) (readable : ∀ i ∈ code, i.Readable) :
    ∀ b ∈ banks, ∀ i ∈ b, i.Readable := by
  induction h with
  | done => simp
  | put h ih =>
    obtain ⟨first, others⟩ := List.forall_mem_cons.mp readable
    obtain ⟨bank, banks⟩ := List.forall_mem_cons.mp (ih others)
    exact List.forall_mem_cons.mpr ⟨List.forall_mem_cons.mpr ⟨first, bank⟩, banks⟩
  | turn h ih => exact List.forall_mem_cons.mpr ⟨by simp, ih readable⟩
  | @cut head tail code bs _ _ _ h ih =>
    obtain ⟨first, others⟩ := List.forall_mem_cons.mp readable
    have hhead : (.text head : Instruction).Readable := fun zero =>
      first (List.mem_append_left tail zero)
    have htail : (.text tail : Instruction).Readable := fun zero =>
      first (List.mem_append_right head zero)
    exact List.forall_mem_cons.mpr ⟨by simpa using hhead,
      ih (List.forall_mem_cons.mpr ⟨htail, others⟩)⟩

theorem mem_dropLast_of_tail {bs : List (List Instruction)} {b : List Instruction}
    (h : b ∈ bs.tail.dropLast) : b ∈ bs.dropLast := by
  rw [← List.tail_dropLast] at h
  exact List.mem_of_mem_tail h

/-- Banks that hold what a program is spread over go together to the program. -/
theorem Spread.reassembles {slice : Bool} {c : Context} {code : List Instruction}
    {banks : List (List Instruction)} {found : List (List Decoded)} (h : Spread slice code banks)
    (tight : ∀ b ∈ banks.tail.dropLast, Tight b)
    (hfound : List.Forall₂ (fun b => List.Forall₂ c.Resolves (b.filter (!·.isLabel))) banks found) :
    ∃ expected, List.Forall₂ c.Resolves (code.filter (!·.isLabel)) expected ∧
      Reassembles slice found expected := by
  induction h generalizing found with
  | done =>
    obtain ⟨_, _, hb, hnil, rfl⟩ := List.forall₂_cons_left_iff.mp hfound
    cases hb
    cases hnil
    exact ⟨[], .nil, .next .done⟩
  | @put i code b bs h ih =>
    obtain ⟨f, fs, hf, hfs, rfl⟩ := List.forall₂_cons_left_iff.mp hfound
    cases hi : i.isLabel with
    | true =>
      rw [List.filter_cons_of_neg (by simp [hi])] at hf ⊢
      exact ih tight (.cons hf hfs)
    | false =>
      rw [List.filter_cons_of_pos (by simp [hi])] at hf ⊢
      obtain ⟨d, f, hd, hrest, rfl⟩ := List.forall₂_cons_left_iff.mp hf
      obtain ⟨expected, hexpected, reassembles⟩ := ih tight (.cons hrest hfs)
      exact ⟨d :: expected, .cons hd hexpected, .whole reassembles⟩
  | @turn code bs h ih =>
    obtain ⟨f, fs, hf, hfs, rfl⟩ := List.forall₂_cons_left_iff.mp hfound
    cases hf
    obtain ⟨expected, hexpected, reassembles⟩ :=
      ih (fun b hb => tight b (mem_dropLast_of_tail hb)) hfs
    exact ⟨expected, hexpected, .next reassembles⟩
  | @cut head tail code bs sliced hhead htail h ih =>
    obtain ⟨f, fs, hf, hfs, rfl⟩ := List.forall₂_cons_left_iff.mp hfound
    obtain ⟨_, _, hd, hnil, rfl⟩ := List.forall₂_cons_left_iff.mp hf
    cases hd
    cases hnil
    obtain ⟨expected, hexpected, reassembles⟩ :=
      ih (fun b hb => tight b (mem_dropLast_of_tail hb)) hfs
    obtain ⟨_, expected, hd, hrest, rfl⟩ := List.forall₂_cons_left_iff.mp hexpected
    cases hd
    -- no bank is left empty, so what is left of the text begins the next one
    obtain ⟨b, back, rfl⟩ := List.exists_cons_of_ne_nil h.ne_nil
    obtain ⟨j, b, rfl, hj⟩ := @Spread.behind_labels _ [] _ _ _ _ (by simp)
      (fun more => tight b (by cases back with | nil => simp at more | cons => simp)) h
    obtain ⟨t, rfl⟩ : ∃ t, j = .text t := by
      rcases hj with rfl | ⟨t, _, -, rfl, -⟩
      exacts [⟨_, rfl⟩, ⟨t, rfl⟩]
    obtain ⟨f, fs, hf, hfs, rfl⟩ := List.forall₂_cons_left_iff.mp hfs
    obtain ⟨_, f, hd, hf, rfl⟩ := List.forall₂_cons_left_iff.mp hf
    cases hd
    exact ⟨_, .cons (.text _) hrest, .cut sliced hhead htail reassembles⟩

/-- Once the jumps between them are taken out, decoded banks hold what the banks were written
from. -/
theorem decode_banks {c : Context} (bounded : c.Bounded) {o : Options}
    {banks : List (List Instruction)} (readable : ∀ b ∈ banks, ∀ i ∈ b, i.Readable)
    {written : List Bank} {k : Nat} (length_eq : written.length = banks.length)
    (h : ∀ j b, banks[j]? = some b → ∃ body, written[j]? = some ⟨o.window (k + j), body ++
        if j + 1 < banks.length then
          Opcode.GOTO.code :: (Place.address o ⟨k + j + 1, 0⟩).bytes else []⟩ ∧
      c.Writes o (k + j) (b.map .item) body) :
    ∃ decoded, written.map (fun b => decode b.bytes) = decoded.map some ∧
      List.Forall₂ (fun b => List.Forall₂ c.Resolves (b.filter (!·.isLabel))) banks
        (withoutBridges decoded) := by
  induction banks generalizing written k with
  | nil =>
    obtain rfl := List.length_eq_zero_iff.mp length_eq
    exact ⟨[], rfl, .nil⟩
  | cons b banks ih =>
    obtain ⟨hb, hbanks⟩ := List.forall_mem_cons.mp readable
    obtain ⟨body, hbody, writes⟩ := h 0 b rfl
    obtain ⟨w, written, rfl⟩ := List.exists_cons_of_length_eq_add_one length_eq
    obtain rfl := Option.some.inj hbody
    have length_eq : written.length = banks.length := by simpa using length_eq
    obtain ⟨decoded, hdecoded, hfound⟩ := @ih hbanks written (k + 1) length_eq fun j b hj => by
      have hbank := h (j + 1) b hj
      rw [show k + (j + 1) = k + 1 + j by omega, List.length_cons] at hbank
      simpa only [Nat.add_lt_add_iff_right, List.getElem?_cons_succ] using hbank
    have decoded_length : decoded.length = banks.length := by
      rw [← length_eq, ← List.length_map, ← hdecoded, List.length_map]
    cases banks with
    | nil =>
      obtain rfl := List.length_eq_zero_iff.mp decoded_length
      obtain ⟨found, hfound, hdecode⟩ := decode_writes bounded hb writes decode_nil
      rw [List.append_nil] at hdecode
      exact ⟨[found], by simpa [hdecode] using hdecoded, .cons hfound .nil⟩
    | cons b' banks =>
      obtain ⟨found, hfound', hdecode⟩ := decode_writes bounded hb writes
        (decode_bridge (Place.address o ⟨k + 1, 0⟩))
      obtain ⟨d, decoded, rfl⟩ := List.exists_cons_of_length_eq_add_one decoded_length
      refine ⟨(found ++ [.code .GOTO [(Place.address o ⟨k + 1, 0⟩).bytes]]) :: d :: decoded,
        by simpa [hdecode] using hdecoded, ?_⟩
      have bridge_erased : withoutBridges ((found ++
          [.code .GOTO [(Place.address o ⟨k + 1, 0⟩).bytes]]) :: d :: decoded) =
          found :: withoutBridges (d :: decoded) := by
        simp [withoutBridges, Decoded.isGoto]
      rw [bridge_erased]
      exact .cons hfound' hfound

/-- An image is read back as the program it was made from. Every bank is decoded to its last byte.
Without the last jump of every bank but the last, the decoded banks one after the other are the
program without its labels and with the bytes of operands for the operands, except that a text may
be cut where a bank ends if that is allowed. -/
theorem image_reads_back {o : Options} {symbols : Symbol.Table} {code : List Instruction}
    {log : Log} {image : Image} (readable : ∀ i ∈ code, i.Readable)
    (h : generate o symbols code = (log, .ok image)) :
    ∃ decoded expected, image.banks.map (fun b => decode b.bytes) = decoded.map some ∧
      List.Forall₂ (resolution o symbols code).Resolves (code.filter (!·.isLabel)) expected ∧
      Reassembles o.sliceText (withoutBridges decoded) expected ∧
      (o.sliceText = false → (withoutBridges decoded).flatten = expected) := by
  obtain ⟨d, h⟩ := generate_eq_ok h
  obtain ⟨decoded, hdecoded, hfound⟩ := decode_banks h.bounded (k := 0)
    (h.spread.readable readable) h.length_eq fun j b hb => by simpa using h.bank_eq hb
  have tight : ∀ b ∈ d.banks.tail.dropLast, Tight b := fun b hb =>
    h.sound.closed_tight b (by simpa [Draft.banks] using mem_dropLast_of_tail hb)
  obtain ⟨expected, hexpected, reassembles⟩ := h.spread.reassembles tight hfound
  refine ⟨decoded, expected, hdecoded, hexpected, reassembles, fun whole => ?_⟩
  rw [whole] at reassembles
  exact reassembles.flatten_eq

/-- Narrow windows over whose end a text may go. -/
def slicingWindows : Options := { narrowWindows with sliceText := true }

/-- A text that is shown again and again. Only its first letter finds room in the first bank. -/
def greetingLoop : List Instruction :=
  [.op .CLEAR, .label "again", .text [72, 101, 108, 108, 111], .jump .GOTO "again"]

theorem generate_greetingLoop :
    ∃ log image, generate slicingWindows .empty greetingLoop = (log, .ok image) ∧
      (resolution slicingWindows .empty greetingLoop).labels.lookup "again" = some ⟨0, 0xC001⟩ ∧
      image.banks.map (fun b => decode b.bytes) =
        [some [.code .CLEAR [], .text [72], .code .GOTO [[1, 0x00, 0x80]]],
          some [.text [101, 108, 108, 111], .code .GOTO [[0, 0x01, 0xC0]]]] := by
  let start : Plan := (Plan.empty.push (.op .CLEAR)).push (.label "again")
  let cut : Plan := (start.push (.text [72])).turn.push (.text [101, 108, 108, 111])
  -- the parts of a text are not found by evaluation alone
  have text : start.place slicingWindows (.text [72, 101, 108, 108, 111]) = .ok cut := by
    change start.placeSliced slicingWindows _ = _
    rw [Plan.placeSliced, dif_neg (by decide), dif_pos (by decide)]
    change Plan.placeSliced slicingWindows _ _ = _
    rw [Plan.placeSliced]
    rfl
  have placed : Plan.of slicingWindows greetingLoop = .ok (cut.push (.jump .GOTO "again")) := by
    change (start.place slicingWindows _ >>= _) = _
    rw [text]
    rfl
  unfold generate resolution
  rw [placed]
  exact ⟨_, _, rfl, by decide +kernel, by decide +kernel⟩

/-- Reading back finds the text in two parts, the jump between them, and the bank and address of the
label in the jump that was written. -/
theorem image_reads_back_greetingLoop :
    (∀ i ∈ greetingLoop, i.Readable) ∧
    ∃ log image, generate slicingWindows .empty greetingLoop = (log, .ok image) ∧
      image.banks.map (fun b => decode b.bytes) =
        [some [.code .CLEAR [], .text [72], .code .GOTO [[1, 0x00, 0x80]]],
          some [.text [101, 108, 108, 111], .code .GOTO [[0, 0x01, 0xC0]]]] ∧
      List.Forall₂ (resolution slicingWindows .empty greetingLoop).Resolves
        [.op .CLEAR, .text [72, 101, 108, 108, 111], .jump .GOTO "again"]
        [.code .CLEAR [], .text [72, 101, 108, 108, 111], .code .GOTO [[0, 0x01, 0xC0]]] ∧
      Reassembles true
        [[.code .CLEAR [], .text [72]], [.text [101, 108, 108, 111], .code .GOTO [[0, 0x01, 0xC0]]]]
        [.code .CLEAR [], .text [72, 101, 108, 108, 111], .code .GOTO [[0, 0x01, 0xC0]]] := by
  have readable : ∀ i ∈ greetingLoop, i.Readable := by decide
  obtain ⟨log, image, h, label, banks⟩ := generate_greetingLoop
  obtain ⟨decoded, expected, hdecoded, hexpected, reassembles, -⟩ := image_reads_back readable h
  obtain rfl : decoded = [[.code .CLEAR [], .text [72], .code .GOTO [[1, 0x00, 0x80]]],
      [.text [101, 108, 108, 111], .code .GOTO [[0, 0x01, 0xC0]]]] :=
    List.map_injective_iff.mpr (fun _ _ => Option.some.inj) (hdecoded.symm.trans banks)
  have hexpected : List.Forall₂ (resolution slicingWindows .empty greetingLoop).Resolves
    [.op .CLEAR, .text [72, 101, 108, 108, 111], .jump .GOTO "again"] expected := hexpected
  obtain rfl : expected =
      [.code .CLEAR [], .text [72, 101, 108, 108, 111], .code .GOTO [[0, 0x01, 0xC0]]] := by
    obtain ⟨_, _, first, others, rfl⟩ := List.forall₂_cons_left_iff.mp hexpected
    obtain ⟨_, _, second, last, rfl⟩ := List.forall₂_cons_left_iff.mp others
    obtain ⟨_, _, third, none, rfl⟩ := List.forall₂_cons_left_iff.mp last
    cases none
    cases second
    cases first with
    | code _ none =>
      cases none
      cases third with
      | code _ one =>
        obtain ⟨_, _, here, none, rfl⟩ := List.forall₂_cons_left_iff.mp one
        cases none
        have bytes := here.operand_eq .GOTO
        simp only [Context.operand, label] at bytes
        obtain rfl := Except.ok.inj bytes
        rfl
  exact ⟨readable, log, image, h, banks, hexpected, reassembles⟩

end Memory

end Gamebook
