import Gamebook.Proofs.Memory.ReadBack

/-!
# Which opcodes an image needs

An interpreter that lacks the opcodes an image does not use can still run it. What an image uses can
be seen in its bytes alone: `ComesTo` goes through the bytes of a bank one instruction at a time,
without knowing how they were written, and what stands where it arrives is an opcode.

`opcodes_of_writes` finds the opcodes of the pieces of a bank in its bytes, the jump to the next
bank among them, and `used_opcodes_exact` says that the opcodes an image lists are exactly those.
-/

namespace Gamebook

/-- The opcode an instruction in memory begins with. -/
def Decoded.opcode : Decoded → Opcode
  | .text _ => .TEXT
  | .data _ => .DATA
  | .code opcode _ => opcode

/-- Reading one instruction after the other from the first byte on leads to where `rest` is left. -/
inductive ComesTo : List UInt8 → List UInt8 → Prop
  | here (bytes : List UInt8) : ComesTo bytes bytes
  | behind {bytes mid rest : List UInt8} {d : Decoded} :
    decodeOne bytes = some (d, mid) → ComesTo mid rest → ComesTo bytes rest

theorem comesTo_iff {bytes rest : List UInt8} : ComesTo bytes rest ↔
    rest = bytes ∨ ∃ d mid, decodeOne bytes = some (d, mid) ∧ ComesTo mid rest := by
  constructor
  · rintro (_ | ⟨one, more⟩)
    · exact .inl rfl
    · exact .inr ⟨_, _, one, more⟩
  · rintro (rfl | ⟨d, mid, one, more⟩)
    · exact .here _
    · exact .behind one more

theorem Opcode.eq_code_of_ofCode? {b : UInt8} {op : Opcode} (h : ofCode? b = some op) :
    b = op.code := by
  have places : all.map Opcode.ctorIdx = List.range all.length := rfl
  have place : (all.map Opcode.ctorIdx)[b.toNat]? = some op.ctorIdx := by
    rw [List.getElem?_map, show all[b.toNat]? = some op from h, Option.map_some]
  rw [places] at place
  obtain ⟨lt, same⟩ := List.getElem?_eq_some_iff.mp place
  rw [List.getElem_range] at same
  rw [code, ← same]
  exact UInt8.ofNat_toNat.symm

/-- What is decoded tells the byte it begins with. -/
theorem Decoded.opcode_of_decodeBody {opcode : Opcode} {bytes rest : List UInt8} {d : Decoded}
    (h : decodeBody opcode bytes = some (d, rest)) : d.opcode = opcode := by
  unfold decodeBody at h
  split at h
  · split at h
    · contradiction
    · obtain ⟨rfl, -⟩ := Prod.mk.inj (Option.some.inj h)
      rfl
  · split at h
    · contradiction
    · obtain ⟨⟨data, mid⟩, -, e⟩ := Option.map_eq_some_iff.mp h
      obtain ⟨rfl, -⟩ := Prod.mk.inj e
      rfl
  · obtain ⟨⟨ys, mid⟩, -, e⟩ := Option.map_eq_some_iff.mp h
    obtain ⟨rfl, -⟩ := Prod.mk.inj e
    rfl

theorem Decoded.opcode_of_decodeOne {bytes rest : List UInt8} {d : Decoded}
    (h : decodeOne bytes = some (d, rest)) : ∃ body, bytes = d.opcode.code :: body := by
  cases bytes with
  | nil => contradiction
  | cons b body =>
    obtain ⟨op, code_eq, h⟩ := Option.bind_eq_some_iff.mp h
    rw [opcode_of_decodeBody h, Opcode.eq_code_of_ofCode? code_eq]
    exact ⟨body, rfl⟩

/-- What is decoded comes apart into its first instruction and those of the other bytes. -/
theorem decode_eq_cons {bytes : List UInt8} {d : Decoded} {ds : List Decoded}
    (h : decode bytes = some (d :: ds)) :
    ∃ rest, decodeOne bytes = some (d, rest) ∧ decode rest = some ds := by
  rw [decode] at h
  split at h
  · simp at h
  · split at h
    · contradiction
    · next d' rest one =>
      obtain ⟨ds', hds, e⟩ := Option.map_eq_some_iff.mp h
      obtain ⟨rfl, rfl⟩ := List.cons.inj e
      exact ⟨rest, one, hds⟩

theorem eq_nil_of_decode {bytes : List UInt8} (h : decode bytes = some []) : bytes = [] := by
  rw [decode] at h
  split at h
  · assumption
  · split at h
    · contradiction
    · simp at h

/-- Where bytes can be decoded, the opcodes that are reached are those of what is decoded. -/
theorem comesTo_opcode_iff {bytes : List UInt8} {ds : List Decoded} (h : decode bytes = some ds)
    (op : Opcode) : (∃ rest, ComesTo bytes (op.code :: rest)) ↔ ∃ d ∈ ds, d.opcode = op := by
  induction ds generalizing bytes with
  | nil =>
    obtain rfl := eq_nil_of_decode h
    refine iff_of_false ?_ (by simp)
    rintro ⟨rest, reached⟩
    obtain same | ⟨d, mid, one, -⟩ := comesTo_iff.mp reached
    · contradiction
    · contradiction
  | cons d ds ih =>
    obtain ⟨rest, one, others⟩ := decode_eq_cons h
    obtain ⟨body, rfl⟩ := Decoded.opcode_of_decodeOne one
    rw [List.exists_mem_cons_iff, ← ih others]
    constructor
    · rintro ⟨last, reached⟩
      obtain same | ⟨d', mid, one', more⟩ := comesTo_iff.mp reached
      · have codes := congrArg Opcode.ofCode? (List.cons.inj same).1
        rw [Opcode.ofCode?_code, Opcode.ofCode?_code] at codes
        exact .inl (Option.some.inj codes).symm
      · obtain ⟨rfl, rfl⟩ := Prod.mk.inj (Option.some.inj (one.symm.trans one'))
        exact .inr ⟨last, more⟩
    · rintro (rfl | ⟨last, more⟩)
      · exact ⟨body, .here _⟩
      · exact ⟨last, .behind one more⟩

namespace Memory

variable {c : Context} {o : Options} {bank : Nat}

theorem Piece.isLabel_of_opcode? {p : Piece} (h : p.opcode? = none) : p.isLabel = true := by
  unfold Piece.opcode? at h
  split at h
  · rfl
  all_goals contradiction

/-- An instruction keeps its opcode in memory. -/
theorem Context.Resolves.opcode_eq {i : Instruction} {d : Decoded} (h : c.Resolves i d) :
    (Piece.item i).opcode? = some d.opcode := by
  cases h <;> rfl

/-- The bytes of a piece are read back as an instruction with its opcode, unless it is a label. -/
theorem decodeOne_piece (bounded : c.Bounded) {p : Piece} {bytes : List UInt8} {op : Opcode}
    (readable : ∀ i, p = .item i → i.Readable) (begins : p.opcode? = some op)
    (h : c.encode o bank p = .ok bytes) :
    ∃ d : Decoded, d.opcode = op ∧ ∀ rest, decodeOne (bytes ++ rest) = some (d, rest) := by
  cases p with
  | bridge =>
    obtain rfl := Except.ok.inj h
    obtain rfl := Option.some.inj begins
    have length_eq : (Place.address o ⟨bank + 1, 0⟩).bytes.length = OperandShape.address.size := rfl
    have one := @decodeOne_code .GOTO [(Place.address o ⟨bank + 1, 0⟩).bytes] (by decide)
      (by decide) (.cons length_eq .nil)
    rw [List.flatten_singleton] at one
    exact ⟨_, rfl, one⟩
  | item i =>
    have hi : i.isLabel = false := by
      cases i with
      | label name => contradiction
      | text | array | code => rfl
    obtain ⟨d, resolves, one⟩ := decodeOne_encode bounded (readable i rfl) hi h
    exact ⟨d, Option.some.inj (resolves.opcode_eq.symm.trans begins), one⟩

/-- What the pieces of a bank begin with is what their bytes are decoded to begin with. -/
theorem opcodes_of_writes (bounded : c.Bounded) {ps : List Piece} {bytes : List UInt8}
    (readable : ∀ i, .item i ∈ ps → i.Readable) (h : c.Writes o bank ps bytes) :
    ∃ ds, decode bytes = some ds ∧ ds.map Decoded.opcode = ps.filterMap Piece.opcode? := by
  induction h with
  | nil => exact ⟨[], decode_nil, rfl⟩
  | @cons p ps first rest hfirst _ ih =>
    obtain ⟨ds, hds, opcodes⟩ := ih fun i hi => readable i (List.mem_cons_of_mem p hi)
    cases begins : p.opcode? with
    | none =>
      -- only labels begin with no opcode, and they take no bytes
      obtain rfl : first = [] := by
        rw [← List.length_eq_zero_iff, Context.length_encode hfirst]
        exact Piece.size_eq_zero_of_isLabel (Piece.isLabel_of_opcode? begins)
      exact ⟨ds, hds, by rw [opcodes, List.filterMap_cons_none begins]⟩
    | some op =>
      obtain ⟨d, rfl, one⟩ := decodeOne_piece bounded
        (fun i hi => readable i (hi ▸ List.mem_cons_self)) begins hfirst
      refine ⟨d :: ds, ?_, ?_⟩
      · rw [decode_cons (one rest), hds, Option.map_some]
      · rw [List.map_cons, opcodes, List.filterMap_cons_some begins]

/-- The instructions among the pieces of banks with jumps between them are those of the banks. -/
theorem mem_of_mem_sealed {bs : List (List Instruction)} {ps : List Piece} {i : Instruction}
    (hps : ps ∈ sealed bs) (hi : .item i ∈ ps) : ∃ b ∈ bs, i ∈ b := by
  fun_induction sealed bs with
  | case1 => contradiction
  | case2 b =>
    obtain rfl := List.mem_singleton.mp hps
    exact ⟨b, List.mem_singleton_self b, by simpa using hi⟩
  | case3 b c bs ih =>
    rcases List.mem_cons.mp hps with rfl | hps
    · exact ⟨b, List.mem_cons_self, by simpa [bridged] using hi⟩
    · obtain ⟨b', mem, hi⟩ := ih hps
      exact ⟨b', List.mem_cons_of_mem b mem, hi⟩

namespace Placed

variable {symbols : Symbol.Table} {code : List Instruction} {image : Image} {draft : Draft}

/-- The bank with number `k` is decoded to what begins like the pieces laid out for it. -/
theorem bank_opcodes (h : Placed o symbols code image draft) (readable : ∀ i ∈ code, i.Readable)
    {k : Nat} {ps : List Piece} (hps : (sealed draft.banks)[k]? = some ps) :
    ∃ b ds, image.banks[k]? = some b ∧ decode b.bytes = some ds ∧
      ds.map Decoded.opcode = ps.filterMap Piece.opcode? := by
  obtain ⟨bytes, bank, writes⟩ := h.bank k ps hps
  have readable : ∀ i, .item i ∈ ps → i.Readable := fun i hi => by
    obtain ⟨b, hb, hi⟩ := mem_of_mem_sealed (List.mem_of_getElem? hps) hi
    exact h.spread.readable readable b hb i hi
  obtain ⟨ds, hds, opcodes⟩ := opcodes_of_writes h.bounded readable writes
  exact ⟨_, ds, bank, hds, opcodes⟩

/-- Every bank is decoded, and has pieces laid out for it. -/
theorem pieces_of_bank (h : Placed o symbols code image draft) (readable : ∀ i ∈ code, i.Readable)
    {b : Bank} (hb : b ∈ image.banks) :
    ∃ ps ∈ sealed draft.banks, ∃ ds, decode b.bytes = some ds ∧
      ds.map Decoded.opcode = ps.filterMap Piece.opcode? := by
  obtain ⟨k, hk⟩ := List.mem_iff_getElem?.mp hb
  have lt : k < (sealed draft.banks).length := by
    rw [length_sealed, ← h.length_eq]
    exact (List.getElem?_eq_some_iff.mp hk).1
  have hps := List.getElem?_eq_getElem lt
  obtain ⟨b', ds, hb', hds, opcodes⟩ := h.bank_opcodes readable hps
  obtain rfl := Option.some.inj (hk.symm.trans hb')
  exact ⟨_, List.mem_of_getElem? hps, ds, hds, opcodes⟩

/-- What is listed is what the banks are decoded to. -/
theorem mem_used_iff (h : Placed o symbols code image draft) (readable : ∀ i ∈ code, i.Readable)
    (op : Opcode) : op ∈ image.used ↔
      ∃ b ∈ image.banks, ∃ ds, decode b.bytes = some ds ∧ ∃ d ∈ ds, d.opcode = op := by
  have of_pieces {ps : List Piece} {ds : List Decoded}
      (opcodes : ds.map Decoded.opcode = ps.filterMap Piece.opcode?) :
      (∃ p ∈ ps, p.opcode? = some op) ↔ ∃ d ∈ ds, d.opcode = op := by
    rw [← List.mem_filterMap, ← opcodes, List.mem_map]
  rw [h.mem_used]
  constructor
  · rintro ⟨ps, hps, listed⟩
    obtain ⟨k, hk⟩ := List.mem_iff_getElem?.mp hps
    obtain ⟨b, ds, hb, hds, opcodes⟩ := h.bank_opcodes readable hk
    exact ⟨b, List.mem_of_getElem? hb, ds, hds, (of_pieces opcodes).mp listed⟩
  · rintro ⟨b, hb, ds, hds, found⟩
    obtain ⟨ps, hps, ds', hds', opcodes⟩ := h.pieces_of_bank readable hb
    obtain rfl := Option.some.inj (hds.symm.trans hds')
    exact ⟨ps, hps, (of_pieces opcodes).mpr found⟩

end Placed

/-- The opcodes that an image lists are exactly those that instructions in its banks begin with, the
jumps between banks, texts and arrays included. Every bank is decoded to its last byte, and an
opcode is listed if and only if something in one of the banks is decoded to it; in other words, if
its code stands where reading the bytes of a bank one instruction after the other leads. -/
theorem used_opcodes_exact {o : Options} {symbols : Symbol.Table} {code : List Instruction}
    {log : Log} {image : Image} (readable : ∀ i ∈ code, i.Readable)
    (h : generate o symbols code = (log, .ok image)) :
    (∀ b ∈ image.banks, ∃ ds, decode b.bytes = some ds) ∧
    ∀ op, (op ∈ image.used ↔
        ∃ b ∈ image.banks, ∃ ds, decode b.bytes = some ds ∧ ∃ d ∈ ds, d.opcode = op) ∧
      (op ∈ image.used ↔ ∃ b ∈ image.banks, ∃ rest, ComesTo b.bytes (op.code :: rest)) := by
  obtain ⟨draft, h⟩ := generate_eq_ok h
  have decodes : ∀ b ∈ image.banks, ∃ ds, decode b.bytes = some ds := fun b hb => by
    obtain ⟨-, -, ds, hds, -⟩ := h.pieces_of_bank readable hb
    exact ⟨ds, hds⟩
  refine ⟨decodes, fun op => ⟨h.mem_used_iff readable op, ?_⟩⟩
  rw [h.mem_used_iff readable op]
  refine exists_congr fun b => and_congr_right fun hb => ?_
  obtain ⟨ds, hds⟩ := decodes b hb
  simp [hds, comesTo_opcode_iff hds]

/-- A text and an array for which the first of two narrow banks has no room. There is no jump in the
program itself. -/
def shortScene : List Instruction :=
  [.op .CLEAR, .text [72, 105], .array "data" [6, 7], .op .END]

theorem used_opcodes_exact_shortScene :
    (∀ i ∈ shortScene, i.Readable) ∧
    ∃ log image, generate narrowWindows .empty shortScene = (log, .ok image) ∧
      image.used = [.END, .TEXT, .GOTO, .CLEAR, .DATA] ∧
      (∀ b ∈ image.banks, ∃ ds, decode b.bytes = some ds) ∧
      ∃ b ∈ image.banks, ∃ rest, ComesTo b.bytes (Opcode.GOTO.code :: rest) := by
  have readable : ∀ i ∈ shortScene, i.Readable := by decide
  obtain ⟨log, image, h, used⟩ : ∃ log image,
      generate narrowWindows .empty shortScene = (log, .ok image) ∧
        image.used = [.END, .TEXT, .GOTO, .CLEAR, .DATA] := ⟨_, _, rfl, by decide⟩
  obtain ⟨decodes, exact_used⟩ := used_opcodes_exact readable h
  exact ⟨readable, log, image, h, used, decodes, (exact_used .GOTO).2.mp (by simp [used])⟩

end Memory

end Gamebook
