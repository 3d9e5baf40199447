import Gamebook.Proofs.Memory.Places

/-!
# What fits in memory

The first pass fills a bank up to the bytes it keeps for the jump to the next one, and begins no
more banks than a byte can count. Everything the second pass computes with fewer bits than it
needs in general is therefore computed exactly: numbers of banks in a byte, offsets and addresses
in a word (`Place.Exact`). `image_within_windows` is the whole of it.
-/

namespace Gamebook.Memory

namespace Window

variable {w : Window}

theorem bridgeSize_lt (h : w.isValid = true) : bridgeSize < w.capacity := by
  simp only [isValid, Bool.and_eq_true, decide_eq_true_eq] at h
  exact h.1

theorem usable_lt (h : w.isValid = true) : w.usable < w.capacity :=
  Nat.sub_lt (Nat.zero_lt_of_lt (bridgeSize_lt h)) (by decide)

theorem end_le (h : w.isValid = true) : w.base + w.capacity ≤ 65536 := by
  simp only [isValid, Bool.and_eq_true, decide_eq_true_eq] at h
  exact h.2

end Window

/-- Computing with a byte for the bank and words for offset and address gives the place and the
address as they are. -/
structure Place.Exact (o : Options) (p : Place) : Prop where
  bank_eq : p.bank.toUInt8.toNat = p.bank
  offset_eq : p.offset.toUInt16.toNat = p.offset
  address_eq : ((o.window p.bank).base.toUInt16 + p.offset.toUInt16).toNat =
    (o.window p.bank).base + p.offset

theorem toNat_toUInt8 {n : Nat} (h : n < 256) : n.toUInt8.toNat = n := Nat.mod_eq_of_lt h

theorem toNat_toUInt16 {n : Nat} (h : n < 65536) : n.toUInt16.toNat = n := Nat.mod_eq_of_lt h

theorem toNat_toUInt16_add {m n : Nat} (h : m + n < 65536) :
    (m.toUInt16 + n.toUInt16).toNat = m + n := by
  rw [UInt16.toNat_add, toNat_toUInt16 (by omega), toNat_toUInt16 (by omega)]
  exact Nat.mod_eq_of_lt h

theorem Place.Exact.of_lt {o : Options} {p : Place} (bank_lt : p.bank < 256)
    (address_lt : (o.window p.bank).base + p.offset < 65536) : p.Exact o where
  bank_eq := toNat_toUInt8 bank_lt
  offset_eq := toNat_toUInt16 (by omega)
  address_eq := toNat_toUInt16_add address_lt

namespace Placed

variable {o : Options} {symbols : Symbol.Table} {code : List Instruction} {image : Image}
  {d : Draft}

theorem count_bounds (h : Placed o symbols code image d) :
    1 ≤ image.banks.length ∧ image.banks.length ≤ 256 := by
  have count_le := h.sound.count_le
  rw [h.length_eq, Draft.banks, List.length_append, List.length_singleton]
  exact ⟨Nat.le_add_left 1 _, count_le⟩

/-- A place that can be filled has an address in the window of its bank, which is computed
exactly. -/
theorem exact_of_le (h : Placed o symbols code image d) {p : Place}
    (bank_lt : p.bank < d.banks.length) (offset_le : p.offset ≤ (o.window p.bank).usable) :
    p.Exact o := by
  have count_le := h.count_bounds.2
  rw [h.length_eq] at count_le
  have usable_lt := Window.usable_lt (h.window_isValid p.bank)
  have end_le := Window.end_le (h.window_isValid p.bank)
  exact .of_lt (by omega) (by omega)

/-- Every bank stays below its capacity, the last one by as much as a jump takes; any other ends
with a jump to the beginning of the next. -/
theorem bank_bounds (h : Placed o symbols code image d) {k : Nat} {bank : Bank}
    (hk : image.banks[k]? = some bank) :
    bank.window = o.window k ∧ bank.bytes.length ≤ bank.window.capacity ∧
      (k + 1 = image.banks.length → bank.bytes.length + bridgeSize ≤ bank.window.capacity) ∧
      (k + 1 < image.banks.length → ∃ body, bank.bytes =
        body ++ Opcode.GOTO.code :: (Place.address o ⟨k + 1, 0⟩).bytes) := by
  have k_lt : k < d.banks.length := h.length_eq ▸ (List.getElem?_eq_some_iff.mp hk).1
  obtain ⟨body, hbody, writes⟩ := h.bank_eq (List.getElem?_eq_getElem k_lt)
  obtain rfl : _ = bank := Option.some.inj (hbody.symm.trans hk)
  have size_le := h.sound.size_le (List.getElem?_eq_getElem k_lt)
  rw [← totalSize_map_item, ← writes.length_eq, Window.usable] at size_le
  have roomy := Window.bridgeSize_lt (h.window_isValid k)
  rw [h.length_eq]
  refine ⟨rfl, ?_, fun last => ?_, fun more => ?_⟩
  · have tail_le : (if k + 1 < d.banks.length then
        Opcode.GOTO.code :: (Place.address o ⟨k + 1, 0⟩).bytes else []).length ≤ bridgeSize := by
      split <;> simp [Address.bytes, wordBytes, bridgeSize]
    rw [List.length_append]
    dsimp only
    omega
  · rw [if_neg (by omega), List.append_nil]
    dsimp only
    omega
  · exact ⟨body, by rw [if_pos more]⟩

/-- A label lies where its piece starts. -/
theorem label_place (h : Placed o symbols code image d) {entry : String × Place}
    (hentry : entry ∈ labelPlaces (sealed d.banks)) :
    entry.2.bank < d.banks.length ∧ entry.2.offset ≤ (o.window entry.2.bank).usable := by
  obtain ⟨name, place⟩ := entry
  obtain ⟨k, ps₁, p, ps₂, hk, -, rfl⟩ := mem_findPlaces.mp hentry
  rw [Nat.zero_add]
  obtain ⟨k_lt, start_le, -⟩ := h.start_le hk
  exact ⟨k_lt, start_le⟩

/-- The elements of an array lie behind its opcode and its length, all of them in what can be
filled. -/
theorem array_place (h : Placed o symbols code image d) {entry : (String × Nat) × Place}
    (hentry : entry ∈ arrayPlaces (sealed d.banks)) :
    entry.2.bank < d.banks.length ∧
      entry.2.offset + 2 + entry.1.2 ≤ (o.window entry.2.bank).usable := by
  obtain ⟨⟨name, length⟩, place⟩ := entry
  obtain ⟨k, ps₁, p, ps₂, hk, hp, rfl⟩ := mem_findPlaces.mp hentry
  rw [Nat.zero_add]
  obtain ⟨k_lt, -, end_le⟩ := h.start_le hk
  cases p with
  | bridge => simp [Piece.array?] at hp
  | item i =>
    cases i with
    | array name' bytes =>
      obtain ⟨rfl, rfl⟩ : name' = name ∧ bytes.length = length := by simpa [Piece.array?] using hp
      have := end_le (by simp)
      rw [Piece.size, Instruction.size] at this
      exact ⟨k_lt, by dsimp only; omega⟩
    | _ => simp [Piece.array?] at hp

/-- A place that can be filled has an address in the window of its bank. -/
theorem address_bounds (h : Placed o symbols code image d) {p : Place}
    (bank_lt : p.bank < d.banks.length) (offset_le : p.offset ≤ (o.window p.bank).usable) :
    (p.address o).bank < image.banks.length ∧
      (o.window (p.address o).bank).base ≤ (p.address o).address ∧
      (p.address o).address <
        (o.window (p.address o).bank).base + (o.window (p.address o).bank).capacity := by
  have usable_lt := Window.usable_lt (h.window_isValid p.bank)
  rw [h.length_eq]
  exact ⟨bank_lt, Nat.le_add_right _ _, by dsimp only [Place.address]; omega⟩

theorem label_bounds (h : Placed o symbols code image d) {name : String} {a : Address}
    (ha : (name, a) ∈ (resolution o symbols code).labels) :
    a.bank < image.banks.length ∧ (o.window a.bank).base ≤ a.address ∧
      a.address < (o.window a.bank).base + (o.window a.bank).capacity := by
  rw [h.labels_eq_labelPlaces] at ha
  obtain ⟨entry, hentry, e⟩ := List.mem_map.mp ha
  obtain ⟨rfl, rfl⟩ := Prod.mk.inj e
  obtain ⟨bank_lt, offset_le⟩ := h.label_place hentry
  exact h.address_bounds bank_lt offset_le

theorem array_bounds (h : Placed o symbols code image d) {name : String} {a : Address}
    {length : Nat} (ha : (name, a, length) ∈ (resolution o symbols code).arrays) :
    a.bank < image.banks.length ∧ (o.window a.bank).base ≤ a.address ∧
      a.address + length < (o.window a.bank).base + (o.window a.bank).capacity := by
  rw [h.arrays_eq_arrayPlaces] at ha
  obtain ⟨⟨⟨name', length'⟩, place⟩, hentry, e⟩ := List.mem_map.mp ha
  obtain ⟨rfl, rfl, rfl⟩ : name' = name ∧ _ = a ∧ length' = length := by simpa using e
  obtain ⟨bank_lt, end_le⟩ := h.array_place hentry
  have usable_lt := Window.usable_lt (h.window_isValid place.bank)
  rw [h.length_eq]
  dsimp only at bank_lt end_le
  exact ⟨bank_lt, Nat.le_add_right _ _, by dsimp only [Place.address]; omega⟩

end Placed

/-- There are between 1 and 256 banks, and each is filled up to its capacity at most, the last one
to four bytes less. Every bank but the last ends with a jump to the beginning of the next, and
labels and arrays have addresses in the windows of their banks.

Nothing is lost where numbers of banks are taken as bytes and offsets and addresses as words: not
for labels, not for arrays and their elements, not for any piece that is written, and not for the
targets of the jumps between banks. -/
theorem image_within_windows {o : Options} {symbols : Symbol.Table} {code : List Instruction}
    {log : Log} {image : Image} (h : generate o symbols code = (log, .ok image)) :
    (1 ≤ image.banks.length ∧ image.banks.length ≤ 256) ∧
    (∀ k bank, image.banks[k]? = some bank →
      bank.window = o.window k ∧ bank.bytes.length ≤ bank.window.capacity ∧
      (k + 1 = image.banks.length → bank.bytes.length + 4 ≤ bank.window.capacity) ∧
      (k + 1 < image.banks.length → ∃ body, bank.bytes = body ++
        [Opcode.GOTO.code, (k + 1).toUInt8, (o.window (k + 1)).base.toUInt8,
          ((o.window (k + 1)).base / 256).toUInt8])) ∧
    (∀ name a, (name, a) ∈ (resolution o symbols code).labels →
      a.bank < image.banks.length ∧ (o.window a.bank).base ≤ a.address ∧
        a.address < (o.window a.bank).base + (o.window a.bank).capacity) ∧
    (∀ name a length, (name, a, length) ∈ (resolution o symbols code).arrays →
      (a.bank < image.banks.length ∧ (o.window a.bank).base ≤ a.address ∧
        a.address < (o.window a.bank).base + (o.window a.bank).capacity) ∧
      ∀ i < length, i.toUInt16.toNat = i ∧
        (a.address.toUInt16 + i.toUInt16).toNat = a.address + i) ∧
    ∃ banks, layout o code = .ok banks ∧
      (∀ entry ∈ labelPlaces banks, entry.2.Exact o) ∧
      (∀ entry ∈ arrayPlaces banks, { entry.2 with offset := entry.2.offset + 2 }.Exact o) ∧
      (∀ k before piece after, banks[k]? = some (before ++ piece :: after) →
        Place.Exact o ⟨k, totalSize before⟩ ∧
        (piece = .bridge → Place.Exact o ⟨k + 1, 0⟩)) := by
  obtain ⟨d, h⟩ := generate_eq_ok h
  refine ⟨h.count_bounds, fun k bank hk => h.bank_bounds hk, fun name a ha => h.label_bounds ha,
    fun name a length ha => ?_, sealed d.banks, h.layout_eq, fun entry hentry => ?_,
    fun entry hentry => ?_, fun k before piece after hk => ⟨?_, fun hpiece => ?_⟩⟩
  · obtain ⟨bank_lt, base_le, end_lt⟩ := h.array_bounds ha
    have window_end_le := Window.end_le (h.window_isValid a.bank)
    refine ⟨⟨bank_lt, base_le, by omega⟩, fun i hi => ⟨toNat_toUInt16 (by omega), ?_⟩⟩
    exact toNat_toUInt16_add (by omega)
  · obtain ⟨bank_lt, offset_le⟩ := h.label_place hentry
    exact h.exact_of_le bank_lt offset_le
  · obtain ⟨bank_lt, end_le⟩ := h.array_place hentry
    exact h.exact_of_le bank_lt (by dsimp only; omega)
  · obtain ⟨k_lt, start_le, -⟩ := h.start_le hk
    exact h.exact_of_le k_lt start_le
  · subst hpiece
    -- a bank with a jump to the next one is not the last
    have more : k + 1 < d.banks.length := by
      rw [getElem?_sealed] at hk
      obtain ⟨b, hb, e⟩ := Option.map_eq_some_iff.mp hk
      by_contra last
      have : Piece.bridge ∈ b.map Piece.item := by
        rw [if_neg last, List.append_nil] at e
        rw [e]
        simp
      simp at this
    exact h.exact_of_le more (Nat.zero_le _)

/-- A small first bank and a larger second one. -/
def narrowWindows : Options := { windows := [⟨0xC000, 8⟩, ⟨0x8000, 20⟩] }

/-- A loop that reads an element of an array. In narrow windows the label moves to the second bank,
which is then filled as far as it can be. -/
def readingLoop : List Instruction :=
  [.op .CLEAR, .label "again", .code .PUSH_A [.element ⟨"data", .value 1⟩], .jump .GOTO "again",
    .text [72, 105], .array "data" [6, 7]]

theorem generate_readingLoop :
    ∃ log image, generate narrowWindows .empty readingLoop = (log, .ok image) ∧
      image.banks.length = 2 :=
  ⟨_, _, rfl, rfl⟩

theorem image_within_windows_readingLoop :
    ∃ log image, generate narrowWindows .empty readingLoop = (log, .ok image) ∧
      (∃ bank, image.banks[0]? = some bank ∧
        ∃ body, bank.bytes = body ++ [Opcode.GOTO.code, 1, 0x00, 0x80]) ∧
      ∃ bank, image.banks[1]? = some bank ∧ bank.bytes.length + 4 ≤ bank.window.capacity := by
  obtain ⟨log, image, h, two⟩ := generate_readingLoop
  have bank := (image_within_windows h).2.1
  have first := List.getElem?_eq_getElem (show 0 < image.banks.length by omega)
  have second := List.getElem?_eq_getElem (show 1 < image.banks.length by omega)
  exact ⟨log, image, h, ⟨_, first, (bank 0 _ first).2.2.2 (by omega)⟩,
    ⟨_, second, (bank 1 _ second).2.2.1 (by omega)⟩⟩

end Gamebook.Memory
