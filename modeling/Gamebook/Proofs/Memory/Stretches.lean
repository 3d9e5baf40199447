import Gamebook.Compilation
import Gamebook.Proofs.Bytecode.NormalForm
import Gamebook.Proofs.Bytecode.Prose
import Gamebook.Proofs.Bytecode.Stack
import Gamebook.Proofs.Memory.ReadBack

/-!
# Stretches of a program in memory

Instructions are fused, texts are compressed, labels disappear, and banks end where they are full.
Through all this a stretch of operations stays together: if neither end of it can be fused with what
stands next to it, then what it is fused to is a stretch of the program that is placed
(`Prose.stretch_of_compress`), and the banks, read one after the other, have it in one piece
(`Memory.stretch_of_generate`). What was fused can be taken apart there as in a program
(`Decoded.expand`), so the stretch is found as it was written (`Memory.stretch_of_program`).
-/

namespace Gamebook

/-! ## Fusing -/

namespace Fusion

variable {xs ys zs : List Instruction} {op : Opcode} {operands : List Operand}

/-- Two stretches are fused on their own if they are not fused where they meet. -/
theorem fusePairs_append (h : ∀ i ∈ xs.getLast?, ∀ j ∈ ys.head?, fuse i j = none) :
    fusePairs (xs ++ ys) = fusePairs xs ++ fusePairs ys := by
  fun_induction fusePairs xs with
  | case1 => rfl
  | case2 i =>
    cases ys with
    | nil => rfl
    | cons j ys =>
      have apart := h i rfl j rfl
      simp [fusePairs, apart]
  | case3 i j rest k hk ih =>
    have later : ∀ i ∈ rest.getLast?, ∀ j ∈ ys.head?, fuse i j = none := fun l hl =>
      h l (by cases rest with | nil => simp at hl | cons => simpa using hl)
    simp [fusePairs, hk, ih later]
  | case4 i j rest hk ih =>
    have later := ih fun l hl => h l (by simpa using hl)
    simpa [fusePairs, hk] using later

/-- What takes nothing from the stack is not fused with what stands before it. -/
theorem fuse_of_pops (pops : op.pops = 0) (i : Instruction) :
    fuse i (.code op operands) = none := by
  refine fuse_eq_none_of_forall fun k hk => ?_
  generalize second : Instruction.code op operands = j at hk
  cases hk with
  | direct h values targets =>
    obtain ⟨rfl, -⟩ := Instruction.code.inj second
    have one := (direct?_eq_some h).1.1
    omega
  | _ =>
    obtain ⟨rfl, -⟩ := Instruction.code.inj second
    contradiction

/-- What leaves nothing on the stack is not fused with what follows it. -/
theorem fuse_of_pushes (pushes : op.pushes = 0) (j : Instruction) :
    fuse (.code op operands) j = none := by
  refine fuse_eq_none_of_forall fun k hk => ?_
  generalize first : Instruction.code op operands = i at hk
  cases hk with
  | _ =>
    obtain ⟨rfl, -⟩ := Instruction.code.inj first
    contradiction

/-- A stretch is fused on its own if neither of its ends is fused with what stands next to it. -/
theorem optimize_stretch (front : ∀ i ∈ xs.getLast?, ∀ j ∈ ys.head?, fuse i j = none)
    (back : ∀ i ∈ (xs ++ ys).getLast?, ∀ j ∈ zs.head?, fuse i j = none) :
    ∃ rest, optimize (xs ++ ys ++ zs) = fusePairs xs ++ fusePairs ys ++ rest := by
  unfold optimize withEnd
  rw [fusePairs_append back, fusePairs_append front]
  split
  · exact ⟨_, rfl⟩
  · exact ⟨_, List.append_assoc _ _ _⟩

theorem isOperation_fusePairs (h : ∀ i ∈ ys, i.isOperation = true) :
    ∀ i ∈ fusePairs ys, i.isOperation = true :=
  forall_mem_fusePairs (fun fuses _ _ => isOperation_of_fuses fuses) h

end Fusion

/-! ## Compressing -/

namespace Prose

variable {compressor : Compressor} {code code' : List Instruction}

theorem replace_append (xs ys : List Instruction) (ts : List (List UInt8)) :
    ∃ rest, replace (xs ++ ys) ts = replace xs ts ++ replace ys rest := by
  fun_induction replace xs ts with
  | case1 old xs t ts ih =>
    obtain ⟨rest, h⟩ := ih
    exact ⟨rest, by simp [replace, h]⟩
  | case2 i xs ts other ih =>
    obtain ⟨rest, h⟩ := ih
    refine ⟨rest, ?_⟩
    rw [List.cons_append, replace, h]
    · rfl
    · exact other
  | case3 ts => exact ⟨ts, rfl⟩

theorem replace_of_isOperation (h : ∀ i ∈ code, i.isOperation = true) (ts : List (List UInt8)) :
    replace code ts = code := by
  fun_induction replace code ts with
  | case1 old code t ts ih => simp [Instruction.isOperation] at h
  | case2 i code ts _ ih => rw [ih fun j hj => h j (List.mem_cons_of_mem i hj)]
  | case3 => rfl

/-- Operations stay where they are. -/
theorem stretch_of_compress {xs ys zs : List Instruction}
    (operations : ∀ i ∈ ys, i.isOperation = true)
    (h : compress compressor (xs ++ ys ++ zs) = .ok code') :
    ∃ front back, code' = front ++ ys ++ back := by
  obtain rfl := eq_replace_of_compress h
  obtain ⟨ts, first⟩ := replace_append (xs ++ ys) zs (compressor (texts (xs ++ ys ++ zs)))
  obtain ⟨ts', second⟩ := replace_append xs ys (compressor (texts (xs ++ ys ++ zs)))
  rw [first, second, replace_of_isOperation operations]
  exact ⟨_, _, rfl⟩

/-- All texts come from those that are put in the places of the old ones. -/
theorem mem_of_replace {ts : List (List UInt8)} {bytes : List UInt8}
    (count : (texts code).length ≤ ts.length) (there : .text bytes ∈ replace code ts) :
    bytes ∈ ts := by
  fun_induction replace code ts with
  | case1 old code t ts ih =>
    rcases List.mem_cons.mp there with same | there
    · cases same
      exact List.mem_cons_self
    · exact List.mem_cons_of_mem t (ih (by simpa [texts] using count) there)
  | case2 i code ts other ih =>
    cases i with
    | text old =>
      -- there is a text for this one
      cases ts with
      | nil => simp [texts] at count
      | cons t ts => exact absurd rfl (other old t ts rfl)
    | _ => exact ih (by simpa [texts] using count) (by simpa using there)
  | case3 => simp at there

/-- No text of a compressed program has the byte in it that ends texts. -/
theorem not_mem_of_compress (h : compress compressor code = .ok code') {bytes : List UInt8}
    (there : .text bytes ∈ code') : 0 ∉ bytes := by
  obtain ⟨fits, rfl⟩ := compress_eq_ok h
  obtain ⟨count, whole⟩ := refusal?_eq_none_iff.mp fits
  exact whole bytes (mem_of_replace (Nat.le_of_eq count.symm) there)

end Prose

/-! ## Reading back -/

/-- The instruction is a text, or its bytes show where it ends. -/
def Instruction.Tellable (i : Instruction) : Prop := (∃ bytes, i = .text bytes) ∨ i.Readable

theorem Pushes.tellable {σ : Scope} {n : Nat} {code : List Instruction} (h : Pushes σ n code) :
    ∀ i ∈ code, i.Tellable := by
  induction h with
  | nil => simp
  | @compute n op xs code _ pushes _ ih =>
    refine List.forall_mem_append.mpr ⟨ih, List.forall_mem_singleton.mpr (.inr ?_)⟩
    constructor <;> (rintro rfl; contradiction)

theorem Balanced.tellable {σ : Scope} {code : List Instruction} (h : Balanced σ code) :
    ∀ i ∈ code, i.Tellable := by
  induction h with
  | nil => simp
  | append _ _ ihx ihy => exact List.forall_mem_append.mpr ⟨ihx, ihy⟩
  | label name => exact List.forall_mem_singleton.mpr (.inr trivial)
  | text bytes => exact List.forall_mem_singleton.mpr (.inl ⟨bytes, rfl⟩)
  | array name _ le => exact List.forall_mem_singleton.mpr (.inr le)
  | @act op xs code pushed acts _ =>
    refine List.forall_mem_append.mpr ⟨pushed.tellable, List.forall_mem_singleton.mpr (.inr ?_)⟩
    constructor <;> (rintro rfl; contradiction)

theorem Fusion.readable_of_fuses {i j k : Instruction} (h : Fuses i j k) : k.Readable := by
  cases h with
  | direct h values targets =>
    unfold direct? at h
    split at h <;> first | contradiction | (cases h; exact ⟨by decide, by decide⟩)
  | _ => exact ⟨by decide, by decide⟩

/-- A program that was fused and compressed can be read back if the opcodes of texts and arrays were
not used for anything else before. -/
theorem Prose.readable_of_compress {compressor : Compressor} {code code' : List Instruction}
    (tellable : ∀ i ∈ code, i.Tellable)
    (h : compress compressor (Fusion.optimize code) = .ok code') : ∀ i ∈ code', i.Readable := by
  have fused : ∀ i ∈ Fusion.fusePairs code, i.Tellable :=
    Fusion.forall_mem_fusePairs (fun fuses _ _ => .inr (Fusion.readable_of_fuses fuses)) tellable
  have optimized : ∀ i ∈ Fusion.optimize code, i.Tellable := by
    unfold Fusion.optimize Fusion.withEnd
    split
    · exact fused
    · refine List.forall_mem_append.mpr ⟨fused, List.forall_mem_singleton.mpr (.inr ?_)⟩
      exact ⟨by decide, by decide⟩
  intro i there
  have told : i.Tellable := by
    rw [eq_replace_of_compress h] at there
    rcases mem_replace there with ⟨bytes, rfl⟩ | there
    · exact .inl ⟨bytes, rfl⟩
    · exact optimized i there
  rcases told with ⟨bytes, rfl⟩ | readable
  · exact not_mem_of_compress h there
  · exact readable

namespace Memory

/-- Operations at the beginning of what is reassembled begin the banks. -/
theorem Reassembles.isPrefix {slice : Bool} {bs : List (List Decoded)} {ds ys : List Decoded}
    (h : Reassembles slice bs ds) (untold : ∀ bytes, .text bytes ∉ ys) (split : ys <+: ds) :
    ys <+: bs.flatten := by
  induction h generalizing ys with
  | done => simpa using split
  | next _ ih => exact ih untold split
  | @whole d b ds bs _ ih =>
    obtain _ | ⟨y, ys⟩ := ys
    · exact List.nil_prefix
    · obtain ⟨rfl, later⟩ := List.cons_prefix_cons.mp split
      refine List.cons_prefix_cons.mpr ⟨rfl, ih (fun bytes there => ?_) later⟩
      exact untold bytes (List.mem_cons_of_mem _ there)
  | cut sliced _ _ _ ih =>
    obtain _ | ⟨y, ys⟩ := ys
    · exact List.nil_prefix
    · obtain ⟨rfl, -⟩ := List.cons_prefix_cons.mp split
      exact absurd List.mem_cons_self (untold _)

/-- Banks that are reassembled have every stretch without texts in one piece. -/
theorem Reassembles.isInfix {slice : Bool} {bs : List (List Decoded)} {ds ys : List Decoded}
    (h : Reassembles slice bs ds) (untold : ∀ bytes, .text bytes ∉ ys) (split : ys <:+: ds) :
    ys <:+: bs.flatten := by
  induction h with
  | done => simpa using split
  | next _ ih => exact ih split
  | @whole d b ds bs h ih =>
    rcases List.infix_cons_iff.mp split with first | later
    · exact ((h.whole).isPrefix untold first).isInfix
    · exact (ih later).trans (List.suffix_cons d _).isInfix
  | @cut head first rest b ds bs sliced hhead hrest h ih =>
    rcases List.infix_cons_iff.mp split with here | later
    · exact ((h.cut sliced hhead hrest).isPrefix untold here).isInfix
    · exact (ih (later.trans (List.suffix_cons _ _).isInfix)).trans (List.suffix_cons _ _).isInfix

theorem untold_of_resolves {c : Context} {ys : List Instruction} {run : List Decoded}
    (operations : ∀ i ∈ ys, i.isOperation = true) (h : List.Forall₂ c.Resolves ys run)
    (bytes : List UInt8) : .text bytes ∉ run := by
  induction h with
  | nil => simp
  | cons resolves _ ih =>
    obtain ⟨first, others⟩ := List.forall_mem_cons.mp operations
    cases resolves with
    | text => contradiction
    | array => contradiction
    | code => simpa using ih others

/-- Operations that stand together in a program stand together in memory. -/
theorem stretch_of_generate {o : Options} {symbols : Symbol.Table}
    {code front ys back : List Instruction} {log : Log} {image : Image}
    (readable : ∀ i ∈ code, i.Readable) (h : generate o symbols code = (log, .ok image))
    (split : code = front ++ ys ++ back) (operations : ∀ i ∈ ys, i.isOperation = true) :
    ∃ decoded run, image.banks.map (fun b => decode b.bytes) = decoded.map some ∧
      run <:+: (withoutBridges decoded).flatten ∧
      List.Forall₂ (resolution o symbols code).Resolves ys run := by
  obtain ⟨d, h⟩ := generate_eq_ok h
  obtain ⟨decoded, hdecoded, hfound⟩ := decode_banks h.bounded (k := 0)
    (h.spread.readable readable) h.length_eq fun j b hb => by simpa using h.bank_eq hb
  have tight : ∀ b ∈ d.banks.tail.dropLast, Tight b := fun b hb =>
    h.sound.closed_tight b (by simpa [Draft.banks] using mem_dropLast_of_tail hb)
  obtain ⟨expected, hexpected, reassembles⟩ := h.spread.reassembles tight hfound
  -- nothing is left out of the stretch, since there are no labels in it
  have whole : ys.filter (!·.isLabel) = ys := List.filter_eq_self.mpr fun i hi => by
    have operation := operations i hi
    cases i <;> first | rfl | contradiction
  have parts : code.filter (!·.isLabel) =
      front.filter (!·.isLabel) ++ (ys ++ back.filter (!·.isLabel)) := by
    rw [split, List.filter_append, List.filter_append, whole, List.append_assoc]
  rw [parts] at hexpected
  have resolved := List.forall₂_take ys.length
    (List.forall₂_drop (front.filter (!·.isLabel)).length hexpected)
  rw [List.drop_left, List.take_left] at resolved
  refine ⟨decoded, _, hdecoded, ?_, resolved⟩
  refine reassembles.isInfix (untold_of_resolves operations resolved) ?_
  exact (List.take_prefix _ _).isInfix.trans (List.drop_suffix _ _).isInfix

/-! ## Taking fused instructions apart -/

end Memory

/-- The two instructions that a fused one in memory stands for; any other stands for itself. -/
def Decoded.expand : Decoded → List Decoded
  | .code .SET_D [target, value] => [.code .PUSH_D [value], .code .POP_SET [target]]
  | .code .SET_I [target, value] => [.code .PUSH_I [value], .code .POP_SET [target]]
  | .code .PRINT_I [value] => [.code .PUSH_I [value], .code .POP_PRINT []]
  | .code .IF_GOTO [target] => [.code .NOT [], .code .IF_N_GOTO [target]]
  | .code op [value] =>
    match Fusion.stacked? op with
    | some pop => [.code .PUSH_D [value], .code pop []]
    | none => [.code op [value]]
  | d => [d]

theorem Decoded.expand_of_unfused {op : Opcode} (h : Fusion.isFused op = false)
    (ys : List (List UInt8)) : (Decoded.code op ys).expand = [.code op ys] := by
  unfold Decoded.expand
  split
  · next same => cases same; contradiction
  · next same => cases same; contradiction
  · next same => cases same; contradiction
  · next same => cases same; contradiction
  · next same =>
    cases same
    have unstacked : Fusion.stacked? op = none := by
      simp only [Fusion.isFused, Bool.or_eq_false_iff] at h
      simpa using h.2
    rw [unstacked]
  · rfl

theorem Decoded.expand_of_stacked? {op pop : Opcode} (h : Fusion.stacked? op = some pop)
    (value : List UInt8) :
    (Decoded.code op [value]).expand = [.code .PUSH_D [value], .code pop []] := by
  unfold Fusion.stacked? at h
  split at h
  all_goals first
    | contradiction
    | exact Option.some.inj h ▸ rfl

/-- What takes its value from a byte has no other operand, what takes it from the stack has none. -/
theorem Fusion.operands_of_stacked? {op pop : Opcode} (h : stacked? op = some pop) :
    op.operands = [.byte] ∧ pop.operands = [] := by
  unfold stacked? at h
  split at h
  all_goals first
    | contradiction
    | exact Option.some.inj h ▸ ⟨rfl, rfl⟩

theorem Fusion.isFused_cases {op : Opcode} (h : isFused op = true) :
    op = .SET_D ∨ op = .SET_I ∨ op = .PRINT_I ∨ op = .IF_GOTO ∨ ∃ pop, stacked? op = some pop := by
  simp only [isFused, Bool.or_eq_true, decide_eq_true_eq, Option.isSome_iff_exists,
    List.mem_cons, List.not_mem_nil, or_false] at h
  tauto

namespace Memory

theorem Context.resolves_op (c : Context) {op : Opcode} (none : op.operands = []) :
    c.Resolves (.op op) (.code op []) := .code (by rw [none]; rfl) (by rw [none]; exact .nil)

theorem Context.resolves_operand {c : Context} {op : Opcode} {shape : OperandShape} {x : Operand}
    {y : List UInt8} (h : c.Becomes shape x y) (one : op.operands = [shape]) :
    c.Resolves (.code op [x]) (.code op [y]) := by
  refine .code (by rw [one]; rfl) ?_
  rw [one]
  exact .cons h .nil

/-- Fused instructions are taken apart in memory as they are in the program. -/
theorem Context.Resolves.expand {c : Context} {i : Instruction} {d : Decoded}
    (h : c.Resolves i d) : List.Forall₂ c.Resolves (Fusion.expand i) d.expand := by
  cases h with
  | text bytes => exact .cons (.text bytes) .nil
  | array name bytes => exact .cons (.array name bytes) .nil
  | @code op xs ys same resolved =>
    cases fused : Fusion.isFused op with
    | false =>
      have unfused : Fusion.Unfused (.code op xs) := ⟨same.symm, fused⟩
      rw [Fusion.expand_of_unfused unfused, Decoded.expand_of_unfused fused]
      exact .cons (.code same resolved) .nil
    | true =>
      -- of two operands the first is the target
      have two {shape shape' : OperandShape} (forms : op.operands = [shape, shape']) :
          ∃ x x' y y', xs = [x, x'] ∧ ys = [y, y'] ∧ c.Becomes shape x y ∧
            c.Becomes shape' x' y' := by
        rw [forms] at same resolved
        obtain ⟨x, x', rfl⟩ := List.length_eq_two.mp same.symm
        obtain ⟨y, _, hy, rest, rfl⟩ := List.forall₂_cons_left_iff.mp resolved
        obtain ⟨y', _, hy', none, rfl⟩ := List.forall₂_cons_left_iff.mp rest
        obtain rfl := List.forall₂_nil_left_iff.mp none
        exact ⟨x, x', y, y', rfl, rfl, hy, hy'⟩
      have one {shape : OperandShape} (forms : op.operands = [shape]) :
          ∃ x y, xs = [x] ∧ ys = [y] ∧ c.Becomes shape x y := by
        rw [forms] at same resolved
        obtain ⟨x, rfl⟩ := List.length_eq_one_iff.mp same.symm
        obtain ⟨y, _, hy, rest, rfl⟩ := List.forall₂_cons_left_iff.mp resolved
        obtain rfl := List.forall₂_nil_left_iff.mp rest
        exact ⟨x, y, rfl, rfl, hy⟩
      obtain rfl | rfl | rfl | rfl | ⟨pop, hpop⟩ := Fusion.isFused_cases fused
      · obtain ⟨x, x', y, y', rfl, rfl, hy, hy'⟩ := two rfl
        exact .cons (resolves_operand hy' rfl) (.cons (resolves_operand hy rfl) .nil)
      · obtain ⟨x, x', y, y', rfl, rfl, hy, hy'⟩ := two rfl
        exact .cons (resolves_operand hy' rfl) (.cons (resolves_operand hy rfl) .nil)
      · obtain ⟨x, y, rfl, rfl, hy⟩ := one rfl
        exact .cons (resolves_operand hy rfl) (.cons (c.resolves_op rfl) .nil)
      · obtain ⟨x, y, rfl, rfl, hy⟩ := one rfl
        exact .cons (c.resolves_op rfl) (.cons (resolves_operand hy rfl) .nil)
      · obtain ⟨forms, none⟩ := Fusion.operands_of_stacked? hpop
        obtain ⟨x, y, rfl, rfl, hy⟩ := one forms
        rw [Fusion.expand_of_stacked? hpop, Decoded.expand_of_stacked? hpop]
        exact .cons (resolves_operand hy rfl) (.cons (c.resolves_op none) .nil)

theorem Context.resolves_flatMap_expand {c : Context} {code : List Instruction}
    {run : List Decoded} (h : List.Forall₂ c.Resolves code run) :
    List.Forall₂ c.Resolves (code.flatMap Fusion.expand) (run.flatMap Decoded.expand) := by
  induction h with
  | nil => exact .nil
  | cons resolves _ ih => exact List.rel_append resolves.expand ih

/-- A stretch of operations of a program, as it was before anything was fused, stands in one piece
in memory once what was fused is taken apart. -/
theorem stretch_of_program {o : Options} {symbols : Symbol.Table}
    {source code xs ys zs : List Instruction} {compressor : Prose.Compressor} {log : Log}
    {image : Image} (tellable : ∀ i ∈ source, i.Tellable)
    (compressed : Prose.compress compressor (Fusion.optimize source) = .ok code)
    (generated : generate o symbols code = (log, .ok image)) (split : source = xs ++ ys ++ zs)
    (operations : ∀ i ∈ ys, i.isOperation = true) (unfused : ∀ i ∈ ys, Fusion.Unfused i)
    (front : ∀ i ∈ xs.getLast?, ∀ j ∈ ys.head?, Fusion.fuse i j = none)
    (back : ∀ i ∈ (xs ++ ys).getLast?, ∀ j ∈ zs.head?, Fusion.fuse i j = none) :
    ∃ decoded run, image.banks.map (fun b => decode b.bytes) = decoded.map some ∧
      run <:+: (withoutBridges decoded).flatten ∧
      List.Forall₂ (resolution o symbols code).Resolves ys (run.flatMap Decoded.expand) := by
  have readable := Prose.readable_of_compress tellable compressed
  obtain ⟨rest, optimized⟩ := Fusion.optimize_stretch front back
  rw [split, optimized] at compressed
  have fused := Fusion.isOperation_fusePairs operations
  obtain ⟨before, after, placed⟩ := Prose.stretch_of_compress fused compressed
  obtain ⟨decoded, run, hdecoded, inside, resolved⟩ :=
    stretch_of_generate readable generated placed fused
  refine ⟨decoded, run, hdecoded, inside, ?_⟩
  rw [← Fusion.expand_fusePairs unfused]
  exact Context.resolves_flatMap_expand resolved

end Memory

/-! ## Compiling -/

/-- What compiling a document does. -/
theorem Document.compile_eq_ok {d : Document} {o : CompileOptions} {compressor : Prose.Compressor}
    {log : Log} {unit : Compilation} (h : d.compile o compressor = (log, .ok unit)) :
    ∃ reading program more, Grammar.read d.scan = some reading ∧
      reading.accept o.grammar = .ok program ∧ unit.symbols = program.symbols ∧
      Prose.compress compressor (Fusion.optimize program.code) = .ok unit.code ∧
      Memory.generate o.memory unit.symbols unit.code = (more, .ok unit.image) := by
  unfold compile at h
  split at h
  · simp at h
  · next notes program parsed =>
    dsimp only at h
    split at h
    · simp at h
    next code compressed =>
    split at h
    · simp at h
    next more image generated =>
    obtain rfl : (⟨code, program.symbols, image⟩ : Compilation) = unit := by
      simpa using (Prod.mk.inj h).2
    unfold Document.parse at parsed
    split at parsed
    · simp at parsed
    next reading found =>
    split at parsed
    · simp at parsed
    next program' accepted =>
    obtain rfl : program' = program := by simpa using (Prod.mk.inj parsed).2
    refine ⟨reading, program', more, found, accepted, rfl, compressed, ?_⟩
    unfold generate at generated
    split at generated
    · next placed =>
      cases generated
      exact placed
    · simp at generated
    · simp at generated

end Gamebook
