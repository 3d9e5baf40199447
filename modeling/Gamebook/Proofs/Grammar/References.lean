import Mathlib.Data.List.Perm.Basic
import Gamebook.Proofs.Grammar.Programs
import Gamebook.Proofs.Memory.Failures

/-!
# References in accepted programs

In the code of a script that is accepted, labels and arrays are exactly those that the script
declares, together with the labels made up for its branches and loops, and every operand that names
a label or an array names one of them. This is `references_resolve`; it follows from the account of
declarations that reading keeps (`Accepted.Complete`), since made-up names are all different
(`Parser.hiddenLabelName_injective`) and cannot be declared (`Parser.isReserved_hiddenLabelName`).
Such code is closed, so it never fails to get into memory for what it refers to.
-/

namespace Gamebook

open Gamebook.Symbol (Declaration Kind)

/-! ## What has a place -/

theorem count_placed_label (code : List Instruction) (name : String) :
    (placed code).count (name, .label) = code.count (.label name) := by
  rw [placed, List.count_filterMap, List.count]
  congr 1
  funext i
  cases i <;> simp [Instruction.places?]

theorem count_labelNames (code : List Instruction) (name : String) :
    (Memory.labelNames code).count name = code.count (.label name) := by
  rw [Memory.labelNames, List.count_filterMap, List.count]
  congr 1
  funext i
  cases i <;> simp [Instruction.label?]

theorem mem_placed_array {code : List Instruction} {name : String} {bytes : List UInt8}
    (h : .array name bytes ∈ code) : (name, .array bytes.length.toUInt8) ∈ placed code :=
  List.mem_filterMap.mpr ⟨_, h, rfl⟩

/-- The instructions that are arrays of this name. -/
def arraysNamed (name : String) (code : List Instruction) : List Instruction :=
  code.filter (·.array? = some name)

theorem count_arrayNames (code : List Instruction) (name : String) :
    (Memory.arrayNames code).count name = (arraysNamed name code).length := by
  rw [Memory.arrayNames, List.count_filterMap, arraysNamed, ← List.countP_eq_length_filter]
  refine List.countP_congr fun i _ => ?_
  cases i <;> simp [Instruction.array?]

/-- If all arrays of a name have one length, they are counted by what has a place. -/
theorem length_arraysNamed {code : List Instruction} {name : String} {len : UInt8}
    (same : ∀ bytes, .array name bytes ∈ code → bytes.length.toUInt8 = len) :
    (arraysNamed name code).length = (placed code).count (name, .array len) := by
  rw [arraysNamed, ← List.countP_eq_length_filter, placed, List.count_filterMap]
  refine List.countP_congr fun i mem => ?_
  cases i with
  | array other bytes =>
    simp only [Instruction.array?, Instruction.places?, decide_eq_true_eq, beq_iff_eq,
      Option.some.injEq, Prod.mk.injEq, Declaration.array.injEq]
    exact ⟨fun e => ⟨e, same bytes (e ▸ mem)⟩, And.left⟩
  | _ => simp [Instruction.array?, Instruction.places?]

theorem OperandsFit.exists_fits {σ : Scope} {op : Opcode} {xs : List Operand} {x : Operand}
    (h : OperandsFit σ op xs) (hx : x ∈ xs) : ∃ shape, x.Fits σ shape := by
  unfold OperandsFit at h
  generalize op.operands = shapes at h
  induction h with
  | nil => simp at hx
  | cons fits _ ih =>
    rcases List.mem_cons.mp hx with rfl | hx
    · exact ⟨_, fits⟩
    · exact ih hx

namespace Grammar

/-! ## Names that are made up -/

namespace Parser

theorem hiddenLabelName_injective : Function.Injective hiddenLabelName := by
  intro m n h
  have digits : Nat.toDigits 10 m = Nat.toDigits 10 n := by
    have numbers := (String.append_right_inj hiddenLabelStem).mp h
    simpa only [Nat.toString_eq_repr, Nat.toList_repr] using congrArg String.toList numbers
  calc
    m = Nat.ofDigitChars 10 (Nat.toDigits 10 m) 0 := Nat.ofDigitChars_ten_toDigits.symm
    _ = Nat.ofDigitChars 10 (Nat.toDigits 10 n) 0 := by rw [digits]
    _ = n := Nat.ofDigitChars_ten_toDigits

theorem isReserved_hiddenLabelName (n : Nat) : Symbol.isReserved (hiddenLabelName n) = true := by
  simp [Symbol.isReserved, hiddenLabelName, hiddenLabelStem, String.toList_append]

/-- How often a name is among the first names that are made up. -/
theorem count_hiddenLabelNames (n k : Nat) :
    ((List.range n).map hiddenLabelName).count (hiddenLabelName k) = if k < n then 1 else 0 := by
  rw [(List.nodup_range.map hiddenLabelName_injective).count]
  simp [hiddenLabelName_injective.eq_iff]

end Parser

/-! ## The labels and arrays of an accepted program -/

namespace Accepted.Complete

variable {T : Accepted} {name : String}

theorem count_label (h : T.Complete) (name : String) :
    T.state.code.count (.label name) = T.state.made name .label := by
  rw [← count_placed_label, h.account name .label rfl]

/-- No name that is made up is known to the script. -/
theorem get?_hiddenLabelName (h : T.Complete) (k : Nat) :
    T.state.symbols.get? (Parser.hiddenLabelName k) = none :=
  Symbol.Table.get?_eq_none_of_isReserved h.finish h.sound (Parser.isReserved_hiddenLabelName k)

theorem declaration_hiddenLabelName (h : T.Complete) (k : Nat) :
    T.state.symbols.declaration (Parser.hiddenLabelName k) = none := by
  rw [Symbol.Table.declaration, h.get?_hiddenLabelName]
  rfl

theorem count_hiddenLabel (h : T.Complete) (k : Nat) :
    T.state.code.count (.label (Parser.hiddenLabelName k)) =
      if k < T.state.hiddenLabels then 1 else 0 := by
  rw [h.count_label, State.made, h.declaration_hiddenLabelName, if_neg (by simp), if_pos rfl,
    Parser.count_hiddenLabelNames, Nat.zero_add]

/-- A label that is declared is placed once. -/
theorem count_declared (h : T.Complete)
    (declared : T.state.symbols.declaration name = some .label) :
    T.state.code.count (.label name) = 1 := by
  have user : name ∉ (List.range T.state.hiddenLabels).map Parser.hiddenLabelName := by
    intro made
    obtain ⟨k, -, rfl⟩ := List.mem_map.mp made
    simp [h.declaration_hiddenLabelName] at declared
  rw [h.count_label, State.made, if_pos declared, if_pos rfl, List.count_eq_zero_of_not_mem user]

/-- A label is declared or made up. -/
theorem label_cases (h : T.Complete) (mem : .label name ∈ T.state.code) :
    T.state.symbols.declaration name = some .label ∨
      ∃ k < T.state.hiddenLabels, name = Parser.hiddenLabelName k := by
  have pos := List.count_pos_iff.mpr mem
  rw [h.count_label, State.made, if_pos rfl] at pos
  by_cases declared : T.state.symbols.declaration name = some .label
  · exact .inl declared
  · rw [if_neg declared, Nat.zero_add] at pos
    obtain ⟨k, hk, rfl⟩ := List.mem_map.mp (List.count_pos_iff.mp pos)
    exact .inr ⟨k, List.mem_range.mp hk, rfl⟩

/-- An array is declared with the length that it has. -/
theorem declaration_of_array (h : T.Complete) {bytes : List UInt8}
    (mem : .array name bytes ∈ T.state.code) :
    T.state.symbols.declaration name = some (.array bytes.length.toUInt8) := by
  have pos := List.count_pos_iff.mpr (mem_placed_array mem)
  rw [h.account name _ rfl, State.made, if_neg (by simp : Declaration.array _ ≠ .label)] at pos
  by_contra undeclared
  simp [undeclared] at pos

/-- An array that is declared is placed once, with as many elements as it is declared with. -/
theorem arraysNamed_eq (h : T.Complete) {len : UInt8}
    (declared : T.state.symbols.declaration name = some (.array len)) :
    ∃ bytes, arraysNamed name T.state.code = [.array name bytes] ∧ bytes.length = len.toNat ∧
      1 ≤ bytes.length ∧ bytes.length ≤ 255 := by
  have same (bytes : List UInt8) (mem : .array name bytes ∈ T.state.code) :
      bytes.length.toUInt8 = len := by
    have := declared.symm.trans (h.declaration_of_array mem)
    simpa using this.symm
  have one : (arraysNamed name T.state.code).length = 1 := by
    rw [length_arraysNamed same, h.account name _ rfl, State.made, if_pos declared,
      if_neg (by simp : Declaration.array _ ≠ .label)]
  obtain ⟨i, hi⟩ := List.length_eq_one_iff.mp one
  obtain ⟨mem, named⟩ := List.mem_filter.mp (hi ▸ List.mem_singleton_self i :
    i ∈ arraysNamed name T.state.code)
  cases i with
  | array other bytes =>
    obtain rfl : other = name := by simpa [Instruction.array?] using named
    obtain ⟨one_le, le⟩ : 1 ≤ bytes.length ∧ bytes.length ≤ 255 :=
      h.balanced.forall_scoped _ mem
    have lt : bytes.length < UInt8.size := by simpa [UInt8.size] using Nat.lt_succ_of_le le
    refine ⟨bytes, hi, ?_, one_le, le⟩
    rw [← same bytes mem, UInt8.toNat_ofNat_of_lt' lt]
  | _ => simp [Instruction.array?] at named

theorem label_mem_of_scope (h : T.Complete) (there : T.scope .label name) :
    .label name ∈ T.state.code := by
  refine List.count_pos_iff.mp ?_
  rcases there with used | ⟨-, k, hk, rfl⟩
  · obtain ⟨what, declared, kind⟩ := Symbol.Table.declaration_of_uses h.finish used
    cases what with
    | label => simp [h.count_declared declared]
    | _ => simp [Declaration.kind] at kind
  · simp [h.count_hiddenLabel, hk]

theorem array_mem_of_scope (h : T.Complete) (there : T.scope .array name) :
    ∃ bytes, .array name bytes ∈ T.state.code := by
  rcases there with used | ⟨kind, -⟩
  · obtain ⟨what, declared, kind⟩ := Symbol.Table.declaration_of_uses h.finish used
    cases what with
    | array len =>
      obtain ⟨bytes, only, -⟩ := h.arraysNamed_eq declared
      exact ⟨bytes, (List.mem_filter.mp (only ▸ List.mem_singleton_self _ :
        .array name bytes ∈ arraysNamed name T.state.code)).1⟩
    | _ => simp [Declaration.kind] at kind
  · contradiction

/-- The label that an operand names is there. -/
theorem label_mem (h : T.Complete) {op : Opcode} {xs : List Operand}
    (mem : .code op xs ∈ T.state.code) (hx : .label name ∈ xs) :
    .label name ∈ T.state.code := by
  obtain ⟨shape, fits⟩ := OperandsFit.exists_fits (h.balanced.forall_scoped _ mem) hx
  cases fits with
  | label there => exact h.label_mem_of_scope there

/-- The array that an operand names is there. -/
theorem array_mem (h : T.Complete) {op : Opcode} {xs : List Operand} {e : Element}
    (mem : .code op xs ∈ T.state.code) (hx : .element e ∈ xs) :
    ∃ bytes, .array e.array bytes ∈ T.state.code := by
  obtain ⟨shape, fits⟩ := OperandsFit.exists_fits (h.balanced.forall_scoped _ mem) hx
  cases fits with
  | element there _ => exact h.array_mem_of_scope there

theorem closed (h : T.Complete) : Memory.Closed T.state.code where
  labels_nodup := by
    refine List.nodup_iff_count_le_one.mpr fun name => ?_
    rw [count_labelNames]
    by_cases mem : .label name ∈ T.state.code
    · rcases h.label_cases mem with declared | ⟨k, hk, rfl⟩
      · exact (h.count_declared declared).le
      · simp [h.count_hiddenLabel, hk]
    · simp [List.count_eq_zero_of_not_mem mem]
  arrays_nodup := by
    refine List.nodup_iff_count_le_one.mpr fun name => ?_
    by_cases there : name ∈ Memory.arrayNames T.state.code
    · obtain ⟨i, mem, hi⟩ := List.mem_filterMap.mp there
      cases i with
      | array other bytes =>
        obtain rfl : other = name := by simpa [Instruction.array?] using hi
        obtain ⟨_, only, -⟩ := h.arraysNamed_eq (h.declaration_of_array mem)
        simp [count_arrayNames, only]
      | _ => simp [Instruction.array?] at hi
    · simp [List.count_eq_zero_of_not_mem there]
  label_mem _ _ _ mem hx := List.mem_filterMap.mpr ⟨_, h.label_mem mem hx, rfl⟩
  array_mem _ _ _ mem hx :=
    have ⟨_, there⟩ := h.array_mem mem hx
    List.mem_filterMap.mpr ⟨_, there, rfl⟩

end Accepted.Complete

/-- What a program declares, has a place for and refers to is the same. -/
structure Program.Linked (p : Program) : Prop where
  /-- A label that is declared is there once. -/
  label_once : ∀ name, p.symbols.declaration name = some .label → p.code.count (.label name) = 1
  /-- An array that is declared is there once, and as long as it is declared. -/
  array_once : ∀ name len, p.symbols.declaration name = some (.array len) →
    ∃ bytes, arraysNamed name p.code = [.array name bytes] ∧ bytes.length = len.toNat ∧
      1 ≤ bytes.length ∧ bytes.length ≤ 255
  /-- Any other label is made up. It is there once, and its name does not occur in the script. -/
  label_declared : ∀ name, .label name ∈ p.code → p.symbols.declaration name = some .label ∨
    (∃ k, name = Parser.hiddenLabelName k) ∧ p.code.count (.label name) = 1 ∧
      p.symbols.get? name = none
  /-- There are no other arrays. -/
  array_declared : ∀ name bytes, .array name bytes ∈ p.code →
    p.symbols.declaration name = some (.array bytes.length.toUInt8)
  /-- The label that an operand names is there. -/
  label_there : ∀ op xs name, .code op xs ∈ p.code → .label name ∈ xs → .label name ∈ p.code
  /-- The array that an operand names is there. -/
  array_there : ∀ op xs e, .code op xs ∈ p.code → .element e ∈ xs →
    ∃ bytes, .array e.array bytes ∈ p.code

/-- The program of a script that is accepted has exactly the labels and arrays that it declares and
makes up, and refers to no others. So it never fails to get into memory because a label or an array
is there twice or not at all, whatever the windows and the names. -/
theorem references_resolve {tokens : List Lexeme} {o : Options} {reading : Reading}
    {program : Program} (hread : read tokens = some reading)
    (haccept : reading.accept o = .ok program) :
    program.Linked ∧
      ∀ (m : Memory.Options) (symbols : Symbol.Table) (log : Log) (e : Memory.GenerateError),
        Memory.generate m symbols (Fusion.optimize program.code) = (log, .error e) →
          ∀ name, e ≠ .duplicateLabel name ∧ e ≠ .undefinedLabel name ∧
            e ≠ .undefinedArray name := by
  obtain ⟨T, rfl, h⟩ := complete_of_accept hread haccept
  refine ⟨⟨?_, ?_, ?_, ?_, ?_, ?_⟩, ?_⟩
  · exact fun name declared => h.count_declared declared
  · exact fun name len declared => h.arraysNamed_eq declared
  · intro name mem
    refine (h.label_cases mem).imp_right ?_
    rintro ⟨k, hk, rfl⟩
    exact ⟨⟨k, rfl⟩, by simp [h.count_hiddenLabel, hk], h.get?_hiddenLabelName k⟩
  · exact fun name bytes mem => h.declaration_of_array mem
  · exact fun op xs name mem hx => h.label_mem mem hx
  · exact fun op xs e mem hx => h.array_mem mem hx
  · intro m symbols log e hg name
    have other := h.closed.optimize.isReference_of_generate hg
    refine ⟨?_, ?_, ?_⟩ <;> rintro rfl <;> simp [Memory.GenerateError.isReference] at other

/-- An array, a loop that reads it, and a jump out of the loop to a label behind it. -/
def searchLoop : List Lexeme :=
  ([.keyword .DIM, .identifier "data", .openParen, .number 2, .closeParen, .colon,
    .keyword .WHILE, .openParen, .identifier "data", .openSquare, .number 0, .closeSquare,
    .closeParen, .colon, .keyword .GOTO, .identifier "found", .colon, .keyword .WEND, .colon,
    .shortLabel "found"] : List Token).map fun t => ⟨.ok t, .nowhere⟩

/-- The loop has a label at its start and one behind its end. -/
def searchCode : List Instruction :=
  [.array "data" [0, 0], .label "__LABEL_0", .code .PUSH_A [.element ⟨"data", .value 0⟩],
    .jump .IF_N_GOTO "__LABEL_1", .jump .GOTO "found", .jump .GOTO "__LABEL_0",
    .label "__LABEL_1", .label "found"]

/-- Where a parser that found what it was looking for ends. -/
def Outcome.done? {α : Type} : Outcome α → Option State
  | .done _ s => some s
  | _ => none

theorem Outcome.eq_done {x : Outcome Unit} {s : State} (h : x.done? = some s) : x = .done () s := by
  cases x with
  | done a s' => rw [Option.some.inj h]
  | _ => contradiction

/-- A script in which nothing is wrong is accepted. -/
theorem accept_of_done {tokens : List Lexeme} {s : State}
    (run : Parser.program (State.start tokens) = .done () s) (fine : s.problems = [])
    (names : ∀ e ∈ s.symbols.entries, Symbol.Table.atEnd e = []) (o : Options) :
    read tokens = some (.ofState s) ∧ (Reading.ofState s).accept o = .ok ⟨s.code, s.symbols⟩ := by
  refine ⟨by rw [read, run], ?_⟩
  simp [Reading.accept, Reading.ofState, fine, Symbol.Table.finish_eq_nil_iff.mpr names]

theorem read_searchLoop : ∃ reading program, read searchLoop = some reading ∧
    reading.accept {} = .ok program ∧ program.code = searchCode ∧
      program.symbols.declaration "found" = some .label ∧
      program.symbols.declaration "data" = some (.array 2) := by
  have check : (Parser.program (State.start searchLoop)).done?.map (fun s =>
      decide (s.problems = [] ∧ (∀ e ∈ s.symbols.entries, Symbol.Table.atEnd e = []) ∧
        s.code = searchCode ∧ s.symbols.declaration "found" = some .label ∧
        s.symbols.declaration "data" = some (.array 2))) = some true := by
    decide +kernel
  obtain ⟨s, hs, check⟩ := Option.map_eq_some_iff.mp check
  obtain ⟨fine, names, code_eq, found, data⟩ := of_decide_eq_true check
  obtain ⟨hread, haccept⟩ := accept_of_done (Outcome.eq_done hs) fine names {}
  exact ⟨_, _, hread, haccept, code_eq, found, data⟩

theorem references_resolve_searchLoop : ∃ reading program, read searchLoop = some reading ∧
    reading.accept {} = .ok program ∧ program.code = searchCode ∧
      program.symbols.declaration "found" = some .label ∧
      program.symbols.declaration "data" = some (.array 2) ∧ program.Linked ∧
      ∀ (m : Memory.Options) (symbols : Symbol.Table) (log : Log) (e : Memory.GenerateError),
        Memory.generate m symbols (Fusion.optimize searchCode) = (log, .error e) →
          ∀ name, e ≠ .duplicateLabel name ∧ e ≠ .undefinedLabel name ∧
            e ≠ .undefinedArray name := by
  obtain ⟨reading, program, hread, haccept, code_eq, found, data⟩ := read_searchLoop
  obtain ⟨linked, resolves⟩ := references_resolve hread haccept
  exact ⟨reading, program, hread, haccept, code_eq, found, data, linked, code_eq ▸ resolves⟩

end Grammar

end Gamebook
