import Gamebook.Proofs.Memory.Places
import Gamebook.Proofs.Symbol.Agreement

/-!
# Programs that differ in the operands of one instruction

Where things lie depends on the sizes of instructions, not on their operands. So if the operands of
one instruction are replaced, the program is laid out as before (`Plan.of_exchange`), everything
refers to the same places, and all bytes stay the same but for those of the operands
(`generate_exchange`).

What stays the same is a `Frame`: the banks of a program with the bytes of one instruction left out.
-/

namespace Gamebook.Memory

/-! ## Frames -/

/-- The banks of a program with the bytes of one instruction left out of one of them. -/
structure Frame where
  before : List (List UInt8)
  front : List UInt8
  back : List UInt8
  after : List (List UInt8)

/-- The banks with these bytes for the instruction. -/
def Frame.fill (f : Frame) (bytes : List UInt8) : List (List UInt8) :=
  f.before ++ (f.front ++ bytes ++ f.back) :: f.after

theorem Frame.fill_inj {f : Frame} {xs ys : List UInt8} : f.fill xs = f.fill ys ↔ xs = ys := by
  simp [fill]

/-! ## Laying out -/

/-- Neither goes past an element that is not wanted. -/
theorem while_append_cons {α : Type} {f : α → Bool} {a : α} (h : f a = false) (xs ys : List α) :
    (xs ++ a :: ys).takeWhile f = xs.takeWhile f ∧
      (xs ++ a :: ys).dropWhile f = xs.dropWhile f ++ a :: ys := by
  induction xs with
  | nil => simp [h]
  | cons x xs ih =>
    cases wanted : f x with
    | true => simpa [wanted] using ih
    | false => simp [wanted]

/-- The pieces of two plans are the same but for the operands of one instruction. -/
inductive Plan.PiecesAlike (op : Opcode) (xs xs' : List Operand) (p p' : Plan) : Prop
  | closed (before after : List (List Piece)) (front back : List Piece) :
    p.closed = before ++ (front ++ .item (.code op xs) :: back) :: after →
    p'.closed = before ++ (front ++ .item (.code op xs') :: back) :: after →
    p'.current = p.current → PiecesAlike op xs xs' p p'
  | current (front back : List Piece) :
    p'.closed = p.closed → p.current = front ++ .item (.code op xs) :: back →
    p'.current = front ++ .item (.code op xs') :: back → PiecesAlike op xs xs' p p'

/-- Two plans that are the same but for the operands of one instruction. -/
structure Plan.Alike (op : Opcode) (xs xs' : List Operand) (p p' : Plan) : Prop where
  offset_eq : p'.offset = p.offset
  labels_eq : p'.labels = p.labels
  arrays_eq : p'.arrays = p.arrays
  pieces : PiecesAlike op xs xs' p p'

namespace Plan.Alike

variable {op : Opcode} {xs xs' : List Operand} {p p' q : Plan} {o : Options} {size : Nat}

theorem length_closed (h : Alike op xs xs' p p') : p'.closed.length = p.closed.length := by
  cases h.pieces with
  | closed _ _ _ _ closed closed' => simp [closed, closed']
  | current _ _ closed => rw [closed]

theorem count_eq (h : Alike op xs xs' p p') : p'.count = p.count := by
  rw [count, count, h.length_closed]

theorem usable_eq (h : Alike op xs xs' p p') : p'.usable o = p.usable o := by
  rw [usable, usable, h.length_closed]

theorem room_eq (h : Alike op xs xs' p p') : p'.room o = p.room o := by
  rw [room, room, h.usable_eq, h.offset_eq]

theorem push (h : Alike op xs xs' p p') (j : Instruction) :
    Alike op xs xs' (p.push j) (p'.push j) where
  offset_eq := congrArg (· + j.size) h.offset_eq
  labels_eq := by
    simp only [Plan.push, h.labels_eq, h.length_closed, h.offset_eq]
  arrays_eq := by
    simp only [Plan.push, h.arrays_eq, h.length_closed, h.offset_eq]
  pieces := by
    cases h.pieces with
    | closed before after front back closed closed' current =>
      exact .closed before after front back closed closed' (by simp only [Plan.push, current])
    | current front back closed current current' =>
      refine .current front (back ++ [.item j]) closed ?_ ?_
      · simp [Plan.push, current]
      · simp [Plan.push, current']

/-- The instruction is no label, so it stays where it is. -/
theorem moved_eq (h : Alike op xs xs' p p') : p'.moved = p.moved := by
  cases h.pieces with
  | closed _ _ _ _ _ _ current => rw [moved, moved, current]
  | current front back _ current current' =>
    have here (zs : List Operand) := (while_append_cons (f := Piece.isLabel)
      (a := .item (.code op zs)) rfl back.reverse front.reverse).1
    simp [moved, current, current', here]

theorem turn (h : Alike op xs xs' p p') : Alike op xs xs' p.turn p'.turn where
  offset_eq := rfl
  labels_eq := by
    simp only [Plan.turn, h.moved_eq, h.length_closed, h.labels_eq]
  arrays_eq := h.arrays_eq
  pieces := by
    cases h.pieces with
    | closed before after front back closed closed' current =>
      refine .closed before
        (after ++ [(p.current.reverse.dropWhile Piece.isLabel).reverse ++ [.bridge]]) front back
        ?_ ?_ h.moved_eq
      · simp [Plan.turn, closed]
      · simp [Plan.turn, closed', current]
    | current front back closed current current' =>
      have here (zs : List Operand) := (while_append_cons (f := Piece.isLabel)
        (a := .item (.code op zs)) rfl back.reverse front.reverse).2
      refine .closed p.closed [] front
        ((back.reverse.dropWhile Piece.isLabel).reverse ++ [.bridge]) ?_ ?_ h.moved_eq
      · simp [Plan.turn, current, here]
      · simp [Plan.turn, current', closed, here]

theorem switch (h : Alike op xs xs' p p') (run : p.switch o size = .ok q) :
    ∃ q', p'.switch o size = .ok q' ∧ Alike op xs xs' q q' := by
  have turned : Alike op xs xs' (if 0 < p.offset then p.turn else p)
      (if 0 < p'.offset then p'.turn else p') := by
    rw [h.offset_eq]
    split
    · exact h.turn
    · exact h
  unfold Plan.switch at run ⊢
  dsimp only at run ⊢
  generalize (if 0 < p.offset then p.turn else p) = r at turned run
  generalize (if 0 < p'.offset then p'.turn else p') = r' at turned ⊢
  rw [turned.count_eq, turned.usable_eq]
  split at run
  · contradiction
  · next few =>
    split at run
    · contradiction
    · next fits =>
      cases run
      rw [if_neg few, if_neg fits]
      exact ⟨_, rfl, turned⟩

theorem makeRoom (h : Alike op xs xs' p p') (run : p.makeRoom o size = .ok q) :
    ∃ q', p'.makeRoom o size = .ok q' ∧ Alike op xs xs' q q' := by
  unfold Plan.makeRoom at run ⊢
  rw [h.usable_eq, h.offset_eq]
  split at run
  · next full =>
    rw [if_pos full]
    exact h.switch run
  · next fits =>
    cases run
    rw [if_neg fits]
    exact ⟨p', rfl, h⟩

theorem placeSliced {rest : List UInt8} (h : Alike op xs xs' p p')
    (run : p.placeSliced o rest = .ok q) :
    ∃ q', p'.placeSliced o rest = .ok q' ∧ Alike op xs xs' q q' := by
  fun_induction Plan.placeSliced o p rest generalizing p' with
  | case1 p rest fits =>
    cases run
    rw [Plan.placeSliced, dif_pos (by rw [h.offset_eq, h.usable_eq]; exact fits)]
    exact ⟨_, rfl, h.push _⟩
  | case2 => contradiction
  | case3 p rest long roomy _ r turned ih =>
    obtain ⟨r', turned', alike⟩ := (h.push _).switch turned
    obtain ⟨q', run', alike'⟩ := ih alike run
    refine ⟨q', ?_, alike'⟩
    rw [Plan.placeSliced, dif_neg (by rw [h.offset_eq, h.usable_eq]; exact long),
      dif_pos (by rw [h.room_eq]; exact roomy)]
    simp only [h.room_eq, turned']
    exact run'
  | case4 => contradiction
  | case5 p rest long narrow r turned room ih =>
    obtain ⟨r', turned', alike⟩ := h.switch turned
    obtain ⟨q', run', alike'⟩ := ih alike run
    refine ⟨q', ?_, alike'⟩
    rw [Plan.placeSliced, dif_neg (by rw [h.offset_eq, h.usable_eq]; exact long),
      dif_neg (by rw [h.room_eq]; exact narrow)]
    split
    · next e failed => simp [failed] at turned'
    · next r'' turned'' =>
      obtain rfl := Except.ok.inj (turned''.symm.trans turned')
      exact run'

/-- One more instruction is laid out in both. -/
theorem place (h : Alike op xs xs' p p') {j : Instruction} (run : p.place o j = .ok q) :
    ∃ q', p'.place o j = .ok q' ∧ Alike op xs xs' q q' := by
  have roomy (k : Instruction) (size : Nat) {r : Plan} (room : p.makeRoom o size = .ok r) :
      ∃ r', p'.makeRoom o size = .ok r' ∧ Alike op xs xs' r r' ∧
        Alike op xs xs' (r.push k) (r'.push k) := by
    obtain ⟨r', room', alike⟩ := h.makeRoom room
    exact ⟨r', room', alike, alike.push k⟩
  cases j with
  | label name =>
    simp only [Plan.place, h.labels_eq] at run ⊢
    split at run
    · contradiction
    · next fresh =>
      cases run
      exact ⟨_, if_neg fresh, h.push _⟩
  | text bytes =>
    simp only [Plan.place, Plan.placeText] at run ⊢
    split at run
    · next sliced =>
      rw [if_pos sliced]
      exact h.placeSliced run
    · next whole =>
      obtain ⟨r, room, last⟩ := bind_eq_ok.mp run
      cases last
      obtain ⟨r', room', -, alike⟩ := roomy (.text bytes) _ room
      rw [if_neg whole, room']
      exact ⟨_, rfl, alike⟩
  | array name bytes =>
    simp only [Plan.place] at run ⊢
    obtain ⟨r, room, last⟩ := bind_eq_ok.mp run
    obtain ⟨r', room', same, alike⟩ := roomy (.array name bytes) _ room
    split at last
    · contradiction
    · next fresh =>
      cases last
      rw [room']
      refine ⟨_, if_neg ?_, alike⟩
      rw [same.arrays_eq]
      exact fresh
  | code op' ys =>
    simp only [Plan.place] at run ⊢
    obtain ⟨r, room, last⟩ := bind_eq_ok.mp run
    cases last
    obtain ⟨r', room', -, alike⟩ := roomy (.code op' ys) _ room
    rw [room']
    exact ⟨_, rfl, alike⟩

theorem foldlM_place (h : Alike op xs xs' p p') {code : List Instruction}
    (run : code.foldlM (Plan.place o) p = .ok q) :
    ∃ q', code.foldlM (Plan.place o) p' = .ok q' ∧ Alike op xs xs' q q' := by
  induction code generalizing p p' with
  | nil =>
    cases run
    exact ⟨p', rfl, h⟩
  | cons j code ih =>
    rw [List.foldlM_cons] at run
    obtain ⟨r, placed, rest⟩ := bind_eq_ok.mp run
    obtain ⟨r', placed', alike⟩ := h.place placed
    obtain ⟨q', rest', alike'⟩ := ih alike rest
    exact ⟨q', by rw [List.foldlM_cons, placed']; exact rest', alike'⟩

theorem banks (h : Alike op xs xs' p p') : ∃ before front back after,
    p.banks = before ++ (front ++ .item (.code op xs) :: back) :: after ∧
      p'.banks = before ++ (front ++ .item (.code op xs') :: back) :: after := by
  cases h.pieces with
  | closed before after front back closed closed' current =>
    refine ⟨before, front, back, after ++ [p.current], ?_, ?_⟩
    · simp [Plan.banks, closed]
    · simp [Plan.banks, closed', current]
  | current front back closed current current' =>
    refine ⟨p.closed, front, back, [], ?_, ?_⟩
    · rw [Plan.banks, current]
    · rw [Plan.banks, closed, current']

end Plan.Alike

/-- Replacing the operands of an instruction replaces them in the bank where it lies. -/
theorem Plan.of_exchange {o : Options} {op : Opcode} {xs : List Operand} (xs' : List Operand)
    {front back : List Instruction} {q : Plan}
    (h : Plan.of o (front ++ .code op xs :: back) = .ok q) :
    ∃ q', Plan.of o (front ++ .code op xs' :: back) = .ok q' ∧ Plan.Alike op xs xs' q q' := by
  rw [Plan.of, List.foldlM_append] at h
  obtain ⟨p, first, rest⟩ := bind_eq_ok.mp h
  rw [List.foldlM_cons] at rest
  obtain ⟨r, placed, rest⟩ := bind_eq_ok.mp rest
  -- room is made for the instruction by its size, which is that of its opcode
  obtain ⟨room, made, last⟩ := bind_eq_ok.mp placed
  cases last
  have placed' : p.place o (.code op xs') = .ok (room.push (.code op xs')) := by
    simp only [Plan.place]
    have made : p.makeRoom o (Instruction.code op xs').size = .ok room := made
    rw [made]
    rfl
  have alike : Plan.Alike op xs xs' (room.push (.code op xs)) (room.push (.code op xs')) :=
    ⟨rfl, rfl, rfl, .current room.current [] rfl rfl rfl⟩
  obtain ⟨q', rest', alike'⟩ := alike.foldlM_place rest
  refine ⟨q', ?_, alike'⟩
  rw [Plan.of, List.foldlM_append, first]
  change (Instruction.code op xs' :: back).foldlM (Plan.place o) p = _
  rw [List.foldlM_cons, placed']
  exact rest'

namespace Context

variable {c : Context} {symbols : Symbol.Table}

/-- The same places are referred to. -/
theorem of_alike {op : Opcode} {xs xs' : List Operand} {p p' : Plan}
    (h : Plan.Alike op xs xs' p p') (o : Options) (symbols symbols' : Symbol.Table) :
    of o symbols' p' = { of o symbols p with symbols := symbols' } := by
  rw [of, h.labels_eq, h.arrays_eq]
  rfl

/-- Of the names, only what they were declared as counts. -/
theorem encode_symbols (same : ∀ name, symbols.declaration name = c.symbols.declaration name)
    (o : Options) (bank : Nat) (p : Piece) :
    { c with symbols := symbols }.encode o bank p = c.encode o bank p := by
  have value : symbols.value? = c.symbols.value? := Symbol.Table.value?_eq same
  have slot (v : Variable) : { c with symbols := symbols }.slot v = c.slot v := by
    have base (b : VariableBase) : { c with symbols := symbols }.baseSlot b = c.baseSlot b := by
      cases b with
      | slot n => rfl
      | named name => simp only [baseSlot, Symbol.Table.slot?, same]
    simp only [Context.slot, base]
  have element (e : Element) : { c with symbols := symbols }.element e = c.element e := by
    simp only [Context.element, value]
  have constant (width : Constant.Width) (e : Constant.Expr) :
      { c with symbols := symbols }.constant width e = c.constant width e := by
    simp only [Context.constant, value]
  have operand (op : Opcode) (shape : OperandShape) (x : Operand) :
      { c with symbols := symbols }.operand op shape x = c.operand op shape x := by
    unfold Context.operand
    simp only [slot, element, constant]
  have operands (op : Opcode) (shapes : List OperandShape) (xs : List Operand) :
      { c with symbols := symbols }.operands op shapes xs = c.operands op shapes xs := by
    fun_induction Context.operands c op shapes xs with
    | case1 shape shapes x xs ih => simp only [Context.operands, operand, ih]
    | case2 => simp [Context.operands]
  unfold encode
  simp only [operands]

/-! ## Writing -/

variable {o : Options} {bank : Nat}

theorem encodeBank_cons {p : Piece} {ps : List Piece} {es : List (Piece × List UInt8)} :
    c.encodeBank o bank (p :: ps) = .ok es ↔ ∃ bytes rest, c.encode o bank p = .ok bytes ∧
      c.encodeBank o bank ps = .ok rest ∧ es = (p, bytes) :: rest := by
  constructor
  · intro h
    obtain ⟨bytes, first, h⟩ := bind_eq_ok.mp h
    obtain ⟨rest, others, h⟩ := bind_eq_ok.mp h
    exact ⟨bytes, rest, first, others, (Except.ok.inj h).symm⟩
  · rintro ⟨bytes, rest, first, others, rfl⟩
    exact bind_eq_ok.mpr ⟨bytes, first, bind_eq_ok.mpr ⟨rest, others, rfl⟩⟩

theorem encodeBanks_cons {b : List Piece} {bs : List (List Piece)}
    {es : List (List (Piece × List UInt8))} :
    c.encodeBanks o bank (b :: bs) = .ok es ↔ ∃ first rest, c.encodeBank o bank b = .ok first ∧
      c.encodeBanks o (bank + 1) bs = .ok rest ∧ es = first :: rest := by
  constructor
  · intro h
    obtain ⟨first, here, h⟩ := bind_eq_ok.mp h
    obtain ⟨rest, others, h⟩ := bind_eq_ok.mp h
    exact ⟨first, rest, here, others, (Except.ok.inj h).symm⟩
  · rintro ⟨first, rest, here, others, rfl⟩
    exact bind_eq_ok.mpr ⟨first, here, bind_eq_ok.mpr ⟨rest, others, rfl⟩⟩

/-- The bytes of one piece stand in the bank, and can be replaced by those of another. -/
theorem encodeBank_exchange {ps qs : List Piece} {p : Piece} {es : List (Piece × List UInt8)}
    (h : c.encodeBank o bank (ps ++ p :: qs) = .ok es) :
    ∃ front old back, c.encode o bank p = .ok old ∧ es.flatMap (·.2) = front ++ old ++ back ∧
      ∀ p' new, c.encode o bank p' = .ok new →
        ∃ es', c.encodeBank o bank (ps ++ p' :: qs) = .ok es' ∧
          es'.flatMap (·.2) = front ++ new ++ back := by
  induction ps generalizing es with
  | nil =>
    obtain ⟨old, rest, here, others, rfl⟩ := encodeBank_cons.mp h
    refine ⟨[], old, rest.flatMap (·.2), here, by simp, fun p' new written => ?_⟩
    refine ⟨(p', new) :: rest, ?_, by simp⟩
    exact encodeBank_cons.mpr ⟨new, rest, written, others, rfl⟩
  | cons r ps ih =>
    obtain ⟨bytes, rest, here, others, rfl⟩ := encodeBank_cons.mp h
    obtain ⟨front, old, back, found, split, replace⟩ := ih others
    refine ⟨bytes ++ front, old, back, found, by simp [split], fun p' new written => ?_⟩
    obtain ⟨es', others', split'⟩ := replace p' new written
    refine ⟨(r, bytes) :: es', ?_, by simp [split']⟩
    exact encodeBank_cons.mpr ⟨bytes, es', here, others', rfl⟩

/-- The bytes of encoded banks. -/
theorem map_bytes_banksFrom (es : List (List (Piece × List UInt8))) :
    (Image.banksFrom o bank es).map (·.bytes) = es.map fun b => b.flatMap (·.2) := by
  induction es generalizing bank with
  | nil => rfl
  | cons e es ih => rw [Image.banksFrom, List.map_cons, List.map_cons, ih]

/-- The same for all banks. -/
theorem encodeBanks_exchange {before after : List (List Piece)} {ps qs : List Piece} {p : Piece}
    {es : List (List (Piece × List UInt8))}
    (h : c.encodeBanks o bank (before ++ (ps ++ p :: qs) :: after) = .ok es) :
    ∃ (frame : Frame) (k : Nat) (old : List UInt8), c.encode o k p = .ok old ∧
      es.map (fun b => b.flatMap (·.2)) = frame.fill old ∧
      ∀ p' new, c.encode o k p' = .ok new →
        ∃ es', c.encodeBanks o bank (before ++ (ps ++ p' :: qs) :: after) = .ok es' ∧
          es'.map (fun b => b.flatMap (·.2)) = frame.fill new := by
  induction before generalizing bank es with
  | nil =>
    obtain ⟨first, rest, here, others, rfl⟩ := encodeBanks_cons.mp h
    obtain ⟨front, old, back, found, split, replace⟩ := encodeBank_exchange here
    refine ⟨⟨[], front, back, rest.map fun b => b.flatMap (·.2)⟩, bank, old, found,
      by simp [Frame.fill, split], fun p' new written => ?_⟩
    obtain ⟨first', here', split'⟩ := replace p' new written
    refine ⟨first' :: rest, ?_, by simp [Frame.fill, split']⟩
    exact encodeBanks_cons.mpr ⟨first', rest, here', others, rfl⟩
  | cons b before ih =>
    obtain ⟨first, rest, here, others, rfl⟩ := encodeBanks_cons.mp h
    obtain ⟨frame, k, old, found, split, replace⟩ := ih others
    refine ⟨{ frame with before := first.flatMap (·.2) :: frame.before }, k, old, found,
      by simp [Frame.fill, split], fun p' new written => ?_⟩
    obtain ⟨es', others', split'⟩ := replace p' new written
    refine ⟨first :: es', ?_, by simp [Frame.fill, split']⟩
    exact encodeBanks_cons.mpr ⟨first, es', here, others', rfl⟩

theorem encodeBanks_congr {c' : Context} (same : ∀ k p, c'.encode o k p = c.encode o k p)
    (banks : List (List Piece)) : c'.encodeBanks o bank banks = c.encodeBanks o bank banks := by
  have one (k : Nat) (ps : List Piece) : c'.encodeBank o k ps = c.encodeBank o k ps := by
    induction ps with
    | nil => rfl
    | cons p ps ih => simp only [encodeBank, same, ih]
  induction banks generalizing bank with
  | nil => rfl
  | cons b banks ih => simp only [encodeBanks, one, ih]

theorem encode_code {k : Nat} {op : Opcode} {xs : List Operand} {bytes : List UInt8} :
    c.encode o k (.item (.code op xs)) = .ok bytes ↔ op.operands.length = xs.length ∧
      ∃ rest, c.operands op op.operands xs = .ok rest ∧ bytes = op.code :: rest := by
  simp only [encode]
  split
  · next other => exact ⟨by rintro ⟨⟩, fun h => absurd h.1 other⟩
  · next same =>
    rw [bind_eq_ok]
    constructor
    · rintro ⟨rest, written, last⟩
      exact ⟨not_not.mp same, rest, written, (Except.ok.inj last).symm⟩
    · rintro ⟨-, rest, written, rfl⟩
      exact ⟨rest, written, rfl⟩

end Context

/-! ## Images -/

/-- The bytes in the banks of an image. -/
def Image.contents (i : Image) : List (List UInt8) := i.banks.map (·.bytes)

/-- The bytes of an instruction stand among those of the program. If its operands are replaced by
others that can be written, and the names stay declared as they are, then the program can be placed
in memory as before, and only the bytes of these operands are others. -/
theorem generate_exchange {o : Options} {symbols : Symbol.Table} {op : Opcode} {xs : List Operand}
    (xs' : List Operand) {front back : List Instruction} {log : Log} {image : Image}
    (h : generate o symbols (front ++ .code op xs :: back) = (log, .ok image)) :
    ∃ (frame : Frame) (c : Context) (old : List UInt8), c.symbols = symbols ∧
      c.operands op op.operands xs = .ok old ∧ image.contents = frame.fill (op.code :: old) ∧
      ∀ symbols' new, (∀ name, symbols'.declaration name = symbols.declaration name) →
        op.operands.length = xs'.length → c.operands op op.operands xs' = .ok new →
        ∃ log' image', generate o symbols' (front ++ .code op xs' :: back) = (log', .ok image') ∧
          image'.contents = frame.fill (op.code :: new) := by
  unfold generate at h
  split at h
  · simp at h
  next checked =>
  split at h
  · simp at h
  next p laidOut =>
  obtain ⟨p', laidOut', alike⟩ := Plan.of_exchange xs' laidOut
  obtain ⟨before, ps, qs, after, banks, banks'⟩ := alike.banks
  dsimp only at h
  split at h
  · simp at h
  next es encoded =>
  rw [banks] at encoded
  obtain rfl : Image.ofEncoded _ o es = image := by simpa using (Prod.mk.inj h).2
  obtain ⟨frame, k, old, found, split, replace⟩ := Context.encodeBanks_exchange encoded
  obtain ⟨-, old, written, rfl⟩ := Context.encode_code.mp found
  refine ⟨frame, _, old, rfl, written, ?_, fun symbols' new same count written' => ?_⟩
  · rw [← split]
    exact Context.map_bytes_banksFrom es
  · obtain ⟨es', encoded', split'⟩ := replace (.item (.code op xs')) (op.code :: new)
      (Context.encode_code.mpr ⟨count, new, written', rfl⟩)
    rw [← Context.encodeBanks_congr (Context.encode_symbols same o)] at encoded'
    rw [generate, checked]
    dsimp only
    rw [laidOut']
    dsimp only
    rw [Context.of_alike alike o symbols symbols', banks', encoded']
    refine ⟨_, _, rfl, ?_⟩
    rw [← split']
    exact Context.map_bytes_banksFrom es'

end Gamebook.Memory
