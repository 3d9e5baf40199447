import Gamebook.Proofs.Constant.Exactness
import Gamebook.Proofs.Grammar.Destinations
import Gamebook.Proofs.Memory.Addresses
import Gamebook.Proofs.Memory.Stretches

/-!
# Lists of values in consecutive places

An assignment computes its values one after the other and stores each of them one place further on
than the one before (`storing`). How far on that is goes through numbers of sixteen bits on its way
into memory, and the sum with the displacement of a variable stops at the greatest of them. Neither
shows in a script that is compiled. What is stored 256 places on cannot be placed, since there are
256 variables and no array is longer than 255; so a list that is too long fails there, long before a
number goes wrong (`add_le_of_below`).

`assignment_stores` says where the values go, for every assignment of every script that is compiled.
It is about the assignment as it is written, with trees for the values and the index, and about the
bytes in memory, with what was fused taken apart again.
-/

namespace Gamebook

/-- Values that are computed one after the other, each of them stored at once: the first one with
`store i`, the next with `store (i + 1)`. -/
def storing {α : Type} (store : Nat → α) : Nat → List (List α) → List α
  | _, [] => []
  | i, value :: values => value ++ store i :: storing store (i + 1) values

section Storing

variable {α β : Type} {R : α → β → Prop} {store : Nat → α} {i : Nat} {values : List (List α)}
  {ds : List β}

/-- Something is related to every store. -/
theorem exists_of_storing (h : List.Forall₂ R (storing store i values) ds) :
    ∀ j < values.length, ∃ d, R (store (i + j)) d := by
  induction values generalizing i ds with
  | nil => simp
  | cons value values ih =>
    obtain ⟨-, rest, -, -, h⟩ := split_of_forall₂ h
    obtain ⟨d, _, here, later, -⟩ := List.forall₂_cons_left_iff.mp h
    rintro (_ | j) lt
    · exact ⟨d, here⟩
    · obtain ⟨d, there⟩ := ih later j (Nat.lt_of_succ_lt_succ lt)
      exact ⟨d, by rwa [show i + (j + 1) = i + 1 + j by omega]⟩

/-- If it is known what is related to each store, then the whole is a list of values with these
stores. -/
theorem storing_of_forall₂ {store' : Nat → β} (h : List.Forall₂ R (storing store i values) ds)
    (unique : ∀ j < values.length, ∀ d, R (store (i + j)) d → d = store' (i + j)) :
    ∃ values', List.Forall₂ (List.Forall₂ R) values values' ∧ ds = storing store' i values' := by
  induction values generalizing i ds with
  | nil =>
    cases h
    exact ⟨[], .nil, rfl⟩
  | cons value values ih =>
    obtain ⟨value', _, rfl, first, h⟩ := split_of_forall₂ h
    obtain ⟨d, rest, here, later, rfl⟩ := List.forall₂_cons_left_iff.mp h
    obtain rfl := unique 0 (Nat.succ_pos _) d here
    obtain ⟨values', others, rfl⟩ := ih later fun j lt d there => by
      have same := unique (j + 1) (Nat.succ_lt_succ lt) d
      rw [show i + (j + 1) = i + 1 + j by omega] at same
      exact same there
    exact ⟨value' :: values', .cons first others, rfl⟩

theorem mem_storing (nonempty : values ≠ []) : store i ∈ storing store i values := by
  cases values with
  | nil => contradiction
  | cons value values => simp [storing]

theorem forall_mem_storing {P : α → Prop} (each : ∀ value ∈ values, ∀ a ∈ value, P a)
    (stores : ∀ i, P (store i)) : ∀ a ∈ storing store i values, P a := by
  induction values generalizing i with
  | nil => simp [storing]
  | cons value values ih =>
    obtain ⟨first, others⟩ := List.forall_mem_cons.mp each
    exact List.forall_mem_append.mpr ⟨first, List.forall_mem_cons.mpr ⟨stores i, ih others⟩⟩

/-- The last thing is a store. -/
theorem getLast?_storing (nonempty : values ≠ []) :
    ∃ j, (storing store i values).getLast? = some (store j) := by
  induction values generalizing i with
  | nil => contradiction
  | cons value values ih =>
    cases values with
    | nil => exact ⟨i, by simp [storing]⟩
    | cons next values =>
      obtain ⟨j, last⟩ := ih (i := i + 1) (List.cons_ne_nil _ _)
      refine ⟨j, ?_⟩
      rw [storing, List.getLast?_append, List.getLast?_cons, last]
      rfl

end Storing

namespace Memory

variable {c : Context}

/-- An instruction with one operand is in memory with the bytes of the operand. -/
theorem Context.Resolves.operand_eq {op : Opcode} {x : Operand} {d : Decoded}
    {shape : OperandShape} (h : c.Resolves (.code op [x]) d) (one : op.operands = [shape]) :
    ∃ y, d = .code op [y] ∧ c.operand op shape x = .ok y := by
  obtain ⟨y, rfl, becomes⟩ := h.becomes one
  exact ⟨y, rfl, becomes.operand_eq op⟩

/-- Places that are below a limit are no more than fit there. It is enough to know this of the first
257 of them: a limit of at most 256 is passed by then. -/
theorem add_le_of_below {base limit n : Nat} (le : limit ≤ 256) (pos : 0 < n)
    (below : ∀ i < n, i ≤ 256 → base + i < limit) : base + n ≤ limit := by
  rcases Nat.lt_or_ge 256 n with long | short
  · have beyond := below 256 long le_rfl
    omega
  · have last := below (n - 1) (by omega) (by omega)
    omega

/-- Where a variable is found that is some places further on. -/
theorem Context.slot_offset_eq_ok {v : Variable} {i : Nat} {b : UInt8} (small : i ≤ 256)
    (h : c.slot (v.offset i.toUInt16) = .ok b) :
    ∃ number, c.baseSlot v.base = .ok number ∧
      number.toNat + v.displacement.toNat + i < 256 ∧
      b.toNat = number.toNat + v.displacement.toNat + i := by
  obtain ⟨number, base, h⟩ := bind_eq_ok.mp h
  have places : i.toUInt16.toNat = i := toNat_toUInt16 (by omega)
  have displaced : (v.offset i.toUInt16).displacement.toNat =
      min (v.displacement.toNat + i) 0xFFFF := by
    rw [Variable.offset, places]
    exact toNat_toUInt16 (by omega)
  rw [displaced] at h
  dsimp only at h
  split at h
  · contradiction
  · next within =>
    obtain rfl := Except.ok.inj h
    refine ⟨number, base, by omega, ?_⟩
    rw [toNat_toUInt8 (by omega)]
    omega

/-- Where the variables are found that are counted from one, if all of them are found. -/
theorem Context.slots_of_resolves {op : Opcode} {v : Variable} {n : Nat}
    (one : op.operands = [.slot]) (pos : 0 < n)
    (found : ∀ i < n, ∃ d, c.Resolves (.code op [.variable (v.offset i.toUInt16)]) d) :
    ∃ number, c.baseSlot v.base = .ok number ∧
      number.toNat + v.displacement.toNat + n ≤ 256 ∧
      ∀ i < n, ∀ d, c.Resolves (.code op [.variable (v.offset i.toUInt16)]) d →
        d = .code op [[(number.toNat + v.displacement.toNat + i).toUInt8]] := by
  have slot {i : Nat} {d : Decoded} (small : i ≤ 256)
      (resolved : c.Resolves (.code op [.variable (v.offset i.toUInt16)]) d) :
      ∃ number b, c.baseSlot v.base = .ok number ∧ d = .code op [[b]] ∧
        number.toNat + v.displacement.toNat + i < 256 ∧
        b.toNat = number.toNat + v.displacement.toNat + i := by
    obtain ⟨y, rfl, written⟩ := resolved.operand_eq one
    obtain ⟨b, hslot, hy⟩ := bind_eq_ok.mp written
    obtain rfl := Except.ok.inj hy
    obtain ⟨number, base, lt, eq⟩ := slot_offset_eq_ok small hslot
    exact ⟨number, b, base, rfl, lt, eq⟩
  obtain ⟨d, first⟩ := found 0 pos
  obtain ⟨number, _, base, -⟩ := slot (Nat.zero_le _) first
  have same {number' : UInt8} (base' : c.baseSlot v.base = .ok number') : number' = number :=
    Except.ok.inj (base'.symm.trans base)
  have fits : number.toNat + v.displacement.toNat + n ≤ 256 := by
    refine add_le_of_below le_rfl pos fun i lt small => ?_
    obtain ⟨d, resolved⟩ := found i lt
    obtain ⟨number', _, base', -, below, -⟩ := slot small resolved
    exact same base' ▸ below
  refine ⟨number, base, fits, fun i lt d resolved => ?_⟩
  obtain ⟨number', b, base', rfl, below, eq⟩ := slot (by omega) resolved
  obtain rfl := same base'
  rw [← eq, Nat.toUInt8, UInt8.ofNat_toNat]

/-- The value of an index that is some places further on. -/
theorem index_offset {σ : Scope} {index : Constant.Expr} {i : Nat} {m k : Int64}
    {lookup : String → Option Int64} (names : index.Scoped σ) (small : i ≤ 256)
    (low : 0 ≤ m.toInt) (high : m.toInt < 256) (first : index.eval lookup = .ok m)
    (there : (if i = 0 then index else index.binary .add (.value (Int64.ofNat i))).eval lookup =
      .ok k) : k.toInt = m.toInt + i := by
  split at there
  · next zero =>
    subst zero
    rw [first] at there
    simp [Except.ok.inj there]
  · rw [Constant.Expr.eval_binary names (.value _) (by decide), first] at there
    have applied : Constant.Operator.add.apply m (Int64.ofNat i) = .ok k := there
    have sum : k.toInt = Constant.clamp (m.toInt + (Int64.ofNat i).toInt) :=
      Constant.Operator.computes_of_apply applied
    have places : (Int64.ofNat i).toInt = i := Int64.toInt_ofNat_of_lt (by omega)
    rw [sum, places, Constant.clamp]
    omega

end Memory

namespace Grammar

open Constant (Expr Width)
open Memory (Context Address)

/-! ## Writing an assignment -/

namespace Parser

variable {T : Accepted} {s s' : State} {lookup : String → Option Int64} {es : List Tree}

/-- What is written for a list of values. -/
theorem storeAll_wrote {t : Target} {i : Nat} {vs : List (Located Value)}
    (known : s.symbols.value? = lookup) (read : ReadAs lookup es vs)
    (values : ∀ v ∈ vs, v.value.Scoped T.scope)
    (run : storeAll t i vs s = .done () s') (final : s'.Grows T.state) :
    (∀ e ∈ es, e.Lowers lookup ∧ e.Pushable lookup ∧ Pushes T.scope 1 (e.code lookup)) ∧
      s'.code = s.code ++ storing (fun i => t.store i) i (es.map (·.code lookup)) := by
  induction read generalizing i s with
  | nil =>
    cases run
    exact ⟨List.forall_mem_nil _, (List.append_nil _).symm⟩
  | @cons e v es vs first _ ih =>
    obtain ⟨lowers, value⟩ := first
    obtain ⟨_, place⟩ := v
    obtain rfl := value
    obtain ⟨here, others⟩ := List.forall_mem_cons.mp values
    obtain ⟨code, s₁, pushed, onward⟩ := bind_eq_done.mp run
    obtain ⟨_, s₂, emitted, rest⟩ := bind_eq_done.mp onward
    have final₂ : s₂.Grows T.state :=
      ((storeAll_writes (T := T) t (i + 1) vs).grows_of_done rest).trans final
    have final₁ : s₁.Grows T.state := by
      refine .trans ?_ final₂
      cases emitted
      exact .of_same rfl rfl rfl le_rfl
    have pushes : Pushes T.scope 1 code :=
      ((push_reads _).given fun _ : True => here).result pushed final₁
    obtain rfl := push_still pushed final₁
    subst known
    have pushable := pushable_of_push pushed final₁
    rw [push_value pushable] at pushed
    cases pushed
    cases emitted
    obtain ⟨each, code_eq⟩ := ih (by rfl) others rest
    refine ⟨List.forall_mem_cons.mpr ⟨⟨lowers, pushable, pushes⟩, each⟩, ?_⟩
    rw [code_eq, List.map_cons, storing]
    simp

/-- What is written for an assignment. -/
theorem assignment_wrote {dest : Destination} {ls rest : List Lexeme} {wrote : List Instruction}
    (complete : T.Complete) (clean : s.Clean) (written : AssignmentWritten dest es ls)
    (declared : dest.Declared T.state.symbols) (pending : s.pending = ls ++ rest)
    (ends : Next (goesOn · = false) rest) (run : assignment s = .done () s')
    (final : s'.Grows T.state) (code_eq : s'.code = s.code ++ wrote) :
    ∃ t, dest.Leads s.symbols.value? t ∧ t.Scoped T.scope ∧
      (∀ e ∈ es, e.Lowers s.symbols.value? ∧ e.Pushable s.symbols.value? ∧
        Pushes T.scope 1 (e.code s.symbols.value?)) ∧
      wrote = storing (fun i => t.store i) 0 (es.map (·.code s.symbols.value?)) := by
  obtain ⟨t, vs, s₁, leads, here, read, known, same, unwritten, stored⟩ :=
    assignment_means complete clean written declared pending ends run final
  obtain ⟨each, all⟩ := storeAll_wrote same read known stored final
  rw [code_eq, unwritten] at all
  exact ⟨t, leads, here, each, List.append_cancel_left all⟩

end Parser

end Grammar

/-! ## The code of an assignment -/

/-- What leaves a value on the stack is not what fusing makes. -/
theorem Fusion.isFused_of_pushes {op : Opcode} (h : op.pushes = 1) : isFused op = false := by
  cases op <;> first | rfl | contradiction

namespace Pushes

variable {σ : Scope} {n : Nat} {code : List Instruction}

theorem ne_nil (h : Pushes σ n code) (pos : 0 < n) : code ≠ [] := by
  cases h with
  | nil => omega
  | compute => simp

/-- Computing begins with an empty stack. -/
theorem pops_of_head (h : Pushes σ n code) :
    ∀ i ∈ code.head?, ∃ op xs, i = .code op xs ∧ op.pops = 0 := by
  induction h with
  | nil => simp
  | @compute n op xs code pushed pushes fit ih =>
    cases code with
    | nil =>
      have none : ¬ 0 < n + op.pops := fun pos => pushed.ne_nil pos rfl
      simp only [List.nil_append, List.head?_cons, Option.mem_some_iff, forall_eq']
      exact ⟨op, xs, rfl, by omega⟩
    | cons first code => exact ih

theorem unfused (h : Pushes σ n code) :
    ∀ i ∈ code, i.isOperation = true ∧ Fusion.Unfused i := by
  induction h with
  | nil => simp
  | compute _ pushes fit ih =>
    refine List.forall_mem_append.mpr ⟨ih, List.forall_mem_singleton.mpr ⟨rfl, ?_⟩⟩
    exact ⟨fit.length_eq.symm, Fusion.isFused_of_pushes pushes⟩

end Pushes

namespace Grammar

open Constant (Expr Width)
open Memory (Context Address)

theorem Target.unfused_store {σ : Scope} {t : Target} (h : t.Scoped σ) (i : Nat) :
    Fusion.Unfused (t.store i) := by
  obtain ⟨op, xs, store, pops, acts, fit⟩ := Target.store_eq h i
  have unfused : Fusion.isFused op = false := by
    cases t <;> (cases store; rfl)
  rw [store]
  exact ⟨fit.length_eq.symm, unfused⟩

section Junctions

variable {σ : Scope} {t : Target} {i : Nat} {codes : List (List Instruction)}

theorem unfused_storing (place : t.Scoped σ) (pushed : ∀ code ∈ codes, Pushes σ 1 code) :
    ∀ j ∈ storing (fun i => t.store i) i codes, j.isOperation = true ∧ Fusion.Unfused j := by
  refine forall_mem_storing (fun code mem => (pushed code mem).unfused) fun i => ?_
  refine ⟨?_, Target.unfused_store place i⟩
  obtain ⟨op, xs, store, -⟩ := Target.store_eq place i
  rw [store]
  rfl

/-- Nothing is fused with the first instruction of an assignment. -/
theorem fuse_head_storing (pushed : ∀ code ∈ codes, Pushes σ 1 code) (nonempty : codes ≠ [])
    (k : Instruction) :
    ∀ j ∈ (storing (fun i => t.store i) i codes).head?, Fusion.fuse k j = none := by
  cases codes with
  | nil => contradiction
  | cons code codes =>
    have first := pushed code List.mem_cons_self
    obtain ⟨j, code, rfl⟩ := List.exists_cons_of_ne_nil (first.ne_nil Nat.one_pos)
    obtain ⟨op, xs, rfl, pops⟩ := first.pops_of_head j rfl
    simpa [storing] using Fusion.fuse_of_pops pops k

/-- The last instruction of an assignment is not fused with anything. -/
theorem fuse_getLast_storing (place : t.Scoped σ) (nonempty : codes ≠ [])
    (xs : List Instruction) (k : Instruction) :
    ∀ j ∈ (xs ++ storing (fun i => t.store i) i codes).getLast?, Fusion.fuse j k = none := by
  obtain ⟨n, last⟩ : ∃ n, (storing (fun i => t.store i) i codes).getLast? = some (t.store n) :=
    getLast?_storing nonempty
  obtain ⟨op, operands, store, -, acts, -⟩ := Target.store_eq place n
  rw [List.getLast?_append, last, store]
  simpa using Fusion.fuse_of_pushes (Opcode.pushes_of_acts acts) k

end Junctions

/-! ## Destinations in memory -/

/-- `store i` stores to the `i`th of `n` places from the destination on, and there are that many. A
variable is stored to by its number, which is the number of the one it is counted from and the
displacement; an element by its address, which lies as far behind the first byte of the array as the
index says. -/
inductive Destination.Stores (m : Memory.Options) (unit : Compilation) (n : Nat) :
    Destination → (Nat → Decoded) → Prop
  | «variable» {base : Located VariableBase} {index : Option Tree} {number : UInt8} {d : Nat} :
    (Memory.resolution m unit.symbols unit.code).Counts base.value number →
    Displaces unit.symbols.value? index d → number.toNat + d + n ≤ 256 →
      Stores m unit n (.variable base index) fun i =>
        .code .POP_SET [[(number.toNat + d + i).toUInt8]]
  | pointer {base : Located VariableBase} {index : Option Tree} {number : UInt8} {d : Nat} :
    (Memory.resolution m unit.symbols unit.code).Counts base.value number →
    Displaces unit.symbols.value? index d → number.toNat + d + n ≤ 256 →
      Stores m unit n (.pointer base index) fun i =>
        .code .POP_SET_DI [[(number.toNat + d + i).toUInt8]]
  | element {array : Located String} {index : Tree} {data : List UInt8} {first : Address}
    {bank : Memory.Bank} {k : Int64} :
    .array array.value data ∈ unit.code → (array.value, first) ∈ unit.image.arrays →
    unit.image.banks[first.bank]? = some bank → bank.window.base ≤ first.address →
    (∀ j x, data[j]? = some x → bank.bytes[first.address - bank.window.base + j]? = some x) →
    index.Lowers unit.symbols.value? → index.known? unit.symbols.value? = some k →
    0 ≤ k.toInt → k.toInt.toNat + n ≤ data.length →
    (∀ i < n, Address.ofBytes? (Address.bytes ⟨first.bank, first.address + (k.toInt.toNat + i)⟩) =
      some ⟨first.bank, first.address + (k.toInt.toNat + i)⟩) →
      Stores m unit n (.element array index) fun i =>
        .code .POP_SET_A [Address.bytes ⟨first.bank, first.address + (k.toInt.toNat + i)⟩]

/-- No two of the places are the same. -/
theorem Destination.Stores.distinct {m : Memory.Options} {unit : Compilation} {n : Nat}
    {dest : Destination} {store : Nat → Decoded} (h : dest.Stores m unit n store) :
    ∀ i < n, ∀ j < n, store i = store j → i = j := by
  have slots {base : Nat} (fits : base + n ≤ 256) {i j : Nat} (hi : i < n) (hj : j < n)
      (same : (base + i).toUInt8 = (base + j).toUInt8) : i = j := by
    have same := congrArg UInt8.toNat same
    rw [Memory.toNat_toUInt8 (by omega), Memory.toNat_toUInt8 (by omega)] at same
    omega
  intro i hi j hj same
  cases h with
  | «variable» _ _ fits => exact slots fits hi hj (by simpa using same)
  | pointer _ _ fits => exact slots fits hi hj (by simpa using same)
  | element _ _ _ _ _ _ _ _ _ readBack =>
    have bytes := List.singleton_inj.mp (Decoded.code.inj same).2
    have address := readBack i hi
    rw [bytes, readBack j hj] at address
    have address := congrArg Address.address (Option.some.inj address)
    dsimp only at address
    omega

/-- Where the elements are found that are counted from one, if all of them are found. -/
theorem elements_of_resolves {c : Context} {σ : Scope} {array : String} {index : Expr}
    {first : Address} {length n : Nat} (names : index.Scoped σ)
    (there : c.arrays.lookup array = some (first, length)) (length_le : length ≤ 255) (pos : 0 < n)
    (found : ∀ i < n, ∃ d, c.Resolves (Target.store i (.element array index)) d) :
    ∃ k : Int64, index.eval c.symbols.value? = .ok k ∧ 0 ≤ k.toInt ∧
      k.toInt.toNat + n ≤ length ∧
      ∀ i < n, ∀ d, c.Resolves (Target.store i (.element array index)) d →
        d = .code .POP_SET_A [Address.bytes ⟨first.bank, first.address + (k.toInt.toNat + i)⟩] := by
  have element {i : Nat} {d : Decoded}
      (resolved : c.Resolves (Target.store i (.element array index)) d) :
      ∃ k : Int64, (if i = 0 then index else index.binary .add (.value (Int64.ofNat i))).eval
          c.symbols.value? = .ok k ∧ 0 ≤ k.toInt ∧ k.toInt.toNat < length ∧
        d = .code .POP_SET_A [Address.bytes ⟨first.bank, first.address + k.toInt.toNat⟩] := by
    obtain ⟨y, rfl, written⟩ := resolved.operand_eq rfl
    obtain ⟨a, length', k, there', value, low, high, rfl⟩ := Context.operand_element_eq_ok written
    rw [there] at there'
    cases there'
    exact ⟨k, value, low, high, rfl⟩
  obtain ⟨_, resolved⟩ := found 0 pos
  obtain ⟨k, value, low, high, -⟩ := element resolved
  have value : index.eval c.symbols.value? = .ok k := value
  have onward {i : Nat} {k' : Int64} (small : i ≤ 256) (value' :
      (if i = 0 then index else index.binary .add (.value (Int64.ofNat i))).eval
        c.symbols.value? = .ok k') : k'.toInt = k.toInt + i :=
    Memory.index_offset names small low (by omega) value value'
  have fits : k.toInt.toNat + n ≤ length := by
    refine Memory.add_le_of_below (by omega) pos fun i lt small => ?_
    obtain ⟨_, resolved⟩ := found i lt
    obtain ⟨k', value', _, high', -⟩ := element resolved
    have sum := onward small value'
    omega
  refine ⟨k, value, low, fits, fun i lt d resolved => ?_⟩
  obtain ⟨k', value', _, _, rfl⟩ := element resolved
  have sum := onward (by omega) value'
  rw [show k'.toInt.toNat = k.toInt.toNat + i by omega]

/-- If a place is found for each of the values, then they are the places from the
destination on. -/
theorem Destination.stores_of_resolves {m : Memory.Options} {unit : Compilation} {log : Log}
    {n : Nat} {σ : Scope} {dest : Destination} {t : Target}
    (generated : Memory.generate m unit.symbols unit.code = (log, .ok unit.image))
    (encodable : Memory.Encodable unit.symbols σ unit.code) (place : t.Scoped σ)
    (leads : dest.Leads unit.symbols.value? t)
    (there : ∀ array index, t = .element array index → array ∈ Memory.arrayNames unit.code)
    (pos : 0 < n)
    (found : ∀ i < n, ∃ d, (Memory.resolution m unit.symbols unit.code).Resolves (t.store i) d) :
    ∃ store, dest.Stores m unit n store ∧ ∀ i < n, ∀ d,
      (Memory.resolution m unit.symbols unit.code).Resolves (t.store i) d → d = store i := by
  cases leads with
  | «variable» based displaced =>
    obtain ⟨number, base, fits, unique⟩ := Context.slots_of_resolves rfl pos found
    exact ⟨_, .variable (Context.baseSlot_eq_ok.mp (based ▸ base)) displaced fits, unique⟩
  | pointer based displaced =>
    obtain ⟨number, base, fits, unique⟩ := Context.slots_of_resolves rfl pos found
    exact ⟨_, .pointer (Context.baseSlot_eq_ok.mp (based ▸ base)) displaced fits, unique⟩
  | @element named tree index lowers expr =>
    obtain ⟨array, place'⟩ := named
    obtain ⟨d, placed⟩ := Memory.generate_eq_ok generated
    obtain ⟨i, mem, named⟩ := List.mem_filterMap.mp (there array index rfl)
    obtain ⟨data, rfl⟩ : ∃ data, i = .array array data := by
      cases i with
      | array name data => exact ⟨data, by rw [Option.some.inj named]⟩
      | _ => contradiction
    obtain ⟨pre, post, split⟩ := List.append_of_mem mem
    obtain ⟨first, bank, lookup, hbank, base_le, bytes⟩ := placed.array_bytes split
    have listed : (array, first) ∈ unit.image.arrays := by
      rw [placed.arrays_eq, Memory.Image.byName, List.mem_mergeSort]
      exact List.mem_map.mpr ⟨_, Memory.mem_of_lookup lookup, rfl⟩
    obtain ⟨k, value, low, fits, unique⟩ :=
      elements_of_resolves place.2 lookup (encodable.fit _ mem).2 pos found
    have known : tree.known? unit.symbols.value? = some k := by
      have value : index.eval unit.symbols.value? = .ok k := value
      simp [Tree.known?, Tree.valueOf, expr, value, Except.toOption]
    exact ⟨_, .element mem listed hbank base_le bytes lowers known low fits fun i lt =>
      placed.ofBytes?_element lookup (by omega), unique⟩

/-! ## Assignments of scripts that are compiled -/

/-- Neither fusing nor compressing touches arrays. -/
theorem arrayNames_of_compress {compressor : Prose.Compressor} {source code : List Instruction}
    (h : Prose.compress compressor (Fusion.optimize source) = .ok code) :
    Memory.arrayNames code = Memory.arrayNames source := by
  rw [Prose.eq_replace_of_compress h]
  exact (Prose.filterMap_replace (fun _ => rfl) _ _).trans
    (Fusion.filterMap_optimize (fun _ _ => rfl) _)

/-- The assignment stands at the beginning of `rest`: tokens spell it, and what follows them does
not go on with it. -/
def Assigns (symbols : Symbol.Table) (rest : List Lexeme) (dest : Destination) (es : List Tree) :
    Prop :=
  ∃ ls after, rest = ls ++ after ∧ AssignmentWritten dest es ls ∧ dest.Declared symbols ∧
    Next (goesOn · = false) after

/-- The instructions are in memory one after the other, with what was fused taken apart. -/
def Holds (unit : Compilation) (ds : List Decoded) : Prop :=
  ∃ decoded run, unit.image.banks.map (fun b => decode b.bytes) = decoded.map some ∧
    run <:+: (Memory.withoutBridges decoded).flatten ∧ run.flatMap Decoded.expand = ds

/-- The assignment is in memory: each value is computed and stored, the `i`th one to the `i`th place
from the destination on. -/
def Stored (m : Memory.Options) (unit : Compilation) (dest : Destination) (es : List Tree) : Prop :=
  ∃ runs store, Holds unit (storing store 0 runs) ∧
    List.Forall₂ (fun e run => e.InMemory (Memory.resolution m unit.symbols unit.code) run)
      es runs ∧
    dest.Stores m unit es.length store ∧
    ∀ i < es.length, ∀ j < es.length, store i = store j → i = j

theorem inMemory_of_resolves {c : Context} {lookup : String → Option Int64} {es : List Tree}
    {runs : List (List Decoded)}
    (later : ∀ name v, lookup name = some v → c.symbols.value? name = some v)
    (each : ∀ e ∈ es, e.Lowers lookup ∧ e.Pushable lookup)
    (resolved : List.Forall₂ (List.Forall₂ c.Resolves) (es.map (·.code lookup)) runs) :
    List.Forall₂ (fun e run => e.InMemory c run) es runs := by
  induction es generalizing runs with
  | nil =>
    cases resolved
    exact .nil
  | cons e es ih =>
    obtain ⟨first, each⟩ := List.forall_mem_cons.mp each
    obtain ⟨run, runs, here, others, rfl⟩ := List.forall₂_cons_left_iff.mp resolved
    exact .cons (Tree.inMemory_of_code later first.1 first.2 here) (ih each others)

/-- Values are stored to consecutive places. Every `SET` and every `LET` of a script that is
compiled is followed by an assignment, and whatever assignment the tokens spell there, the code in
memory computes each of its values and stores it, the `i`th one to the variable or the element that
many places behind the destination. All these places are there: numbers of variables stay below 256,
and indices below the length of the array, however long the list is. -/
theorem assignment_stores {d : Document} {o : CompileOptions} {compressor : Prose.Compressor}
    {log : Log} {unit : Compilation} {before rest : List Lexeme} {word : Keyword}
    {place : Location} (h : d.compile o compressor = (log, .ok unit))
    (split : d.scan = before ++ ⟨.ok (.keyword word), place⟩ :: rest)
    (begins : word = .SET ∨ word = .LET) :
    (∃ dest es, Assigns unit.symbols rest dest es) ∧
      ∀ dest es, Assigns unit.symbols rest dest es → Stored o.memory unit dest es := by
  obtain ⟨reading, program, more, hread, haccept, symbols, compressed, generated⟩ :=
    Document.compile_eq_ok h
  obtain ⟨T, strict, run, rfl, complete⟩ := reached_of_accept hread haccept
  have symbols : unit.symbols = T.state.symbols := symbols
  obtain ⟨s, s', wrote, grows, pending, assigned, final, ends, code_eq, xs, zs, inside⟩ :=
    assigned_of_program strict run split (by rcases begins with rfl | rfl <;> rfl)
  have clean : s.Clean := grows.clean (clean_of_program run)
  constructor
  · obtain ⟨dest, es, ls, written, declared, taken⟩ :=
      Parser.assignment_takes complete clean assigned final
    exact ⟨dest, es, ls, s'.pending, pending.symm.trans taken, written, symbols ▸ declared, ends⟩
  rintro dest es ⟨ls, after, spelled, written, declared, ends⟩
  have later : s.symbols.Precedes unit.symbols :=
    symbols ▸ (((Parser.assignment_writes (T := T) (C := True)).grows_of_done assigned).trans
      final).symbols.precedes
  obtain ⟨t, leads, here, each, rfl⟩ := Parser.assignment_wrote complete clean written
    (symbols ▸ declared) (pending.trans spelled) ends assigned final code_eq
  have nonempty : es.map (·.code s.symbols.value?) ≠ [] := by
    simpa using written.ne_nil
  have pushes : ∀ code ∈ es.map (·.code s.symbols.value?), Pushes T.scope 1 code := by
    simpa using fun e he => (each e he).2.2
  -- what was written stands in memory
  have unfused := unfused_storing (i := 0) here pushes
  obtain ⟨decoded, run, hdecoded, part, resolved⟩ := Memory.stretch_of_program
    complete.balanced.tellable compressed generated inside.symm
    (fun j mem => (unfused j mem).1) (fun j mem => (unfused j mem).2)
    (fun k _ => fuse_head_storing pushes nonempty k)
    (fun j mem k _ => fuse_getLast_storing here nonempty xs k j mem)
  -- so a place was found for each of the values
  have encodable : Memory.Encodable unit.symbols T.scope unit.code := by
    rw [symbols, Prose.eq_replace_of_compress compressed]
    exact complete.encodable.optimize.replace _
  have there (array : String) (index : Expr) (element : t = .element array index) :
      array ∈ Memory.arrayNames unit.code := by
    subst element
    have mem : Target.store 0 (.element array index) ∈ T.state.code := by
      rw [← inside]
      exact List.mem_append_left _ (List.mem_append_right _ (mem_storing nonempty))
    rw [arrayNames_of_compress compressed]
    exact complete.encodable.closed.array_mem _ _ _ mem List.mem_cons_self
  have found := exists_of_storing resolved
  simp only [Nat.zero_add] at found
  obtain ⟨store, places, unique⟩ := Destination.stores_of_resolves generated encodable here
    (leads.later later) there (List.length_pos_iff.mpr nonempty) found
  obtain ⟨runs, computed, expanded⟩ := storing_of_forall₂ resolved
    (by simpa only [Nat.zero_add] using unique)
  rw [List.length_map] at places
  exact ⟨runs, store, ⟨decoded, run, hdecoded, part, expanded⟩,
    inMemory_of_resolves later (fun e he => ⟨(each e he).1, (each e he).2.1⟩) computed, places,
    places.distinct⟩

/-- Lists for variables up to the last one there is, and for the elements of an array up to its
end. -/
def twoLists : Document where
  name := "lists"
  text := "[[DECLARE 250 AS x:DIM row(4):SET x[3] TO \x7b1,2+3,@9\x7d:LET row[1]=\x7b6,7,8\x7d]]"

/-- The places of the tokens. -/
def spot (i : Nat) : Location := ((twoLists.scan.map (·.place))[i]?).getD .nowhere

/-- The last three variables, counted from one with a name. -/
def lastVariables : Destination := .variable ⟨.named "x", spot 13⟩ (some (.number 3))

def threeValues : List Tree :=
  [.number 1, .binary .add (.number 2) (.number 3), .reference .content ⟨.slot 9, spot 26⟩]

/-- The last three elements of the array. -/
def lastElements : Destination := .element ⟨"row", spot 30⟩ (.number 1)

def threeNumbers : List Tree := [.number 6, .number 7, .number 8]

theorem written_number (n i : Nat) (level : Level) :
    Written level (.number n) [⟨.ok (.number n), spot i⟩] :=
  .of_primary (.number n (spot i)) level

theorem written_lastVariables : AssignmentWritten lastVariables threeValues
    ((twoLists.scan.drop 13).take 15) := by
  have sum := Written.binary .add (spot 22) (written_number 2 21 _) (written_number 3 23 _)
  have content : Written .or (.reference .content ⟨.slot 9, spot 26⟩) _ :=
    .of_primary (.reference _ (.content (spot 25))) _
  have listed := ListWritten.cons (spot 20) (written_number 1 19 _) (.cons (spot 24)
    (.tighter (.tighter (.tighter (.tighter (.tighter (.tighter (.tighter sum)))))))
    (.single content))
  have written : lastVariables.Written _ :=
    .variable (.displaced (spot 14) (spot 16) (written_number 3 15 _))
  have whole : AssignmentWritten lastVariables threeValues _ :=
    .mk (spot 17) (.inl rfl) written (.several (spot 18) (spot 27) listed)
  refine cast (congrArg _ ?_) whole
  decide +kernel

theorem written_lastElements : AssignmentWritten lastElements threeNumbers
    ((twoLists.scan.drop 30).take 12) := by
  have listed := ListWritten.cons (spot 37) (written_number 6 36 _) (.cons (spot 39)
    (written_number 7 38 _) (.single (written_number 8 40 _)))
  have written : lastElements.Written _ :=
    .element ⟨"row", spot 30⟩ (spot 31) (spot 33) (written_number 1 32 _)
  have whole : AssignmentWritten lastElements threeNumbers _ :=
    .mk (spot 34) (.inr rfl) written (.several (spot 35) (spot 41) listed)
  refine cast (congrArg _ ?_) whole
  decide +kernel

/-- The program as it is placed in memory, if it fits there. -/
def placed? (s : State) : Option Compilation :=
  match Prose.compress Prose.verbatim (Fusion.optimize s.code) with
  | .error _ => none
  | .ok code =>
    match generate {} s.symbols code with
    | (_, .ok image) => some ⟨code, s.symbols, image⟩
    | (_, .error _) => none

theorem compile_of_check {d : Document} {P : Compilation → Bool}
    (check : (Parser.program (State.start d.scan)).done?.map (fun s =>
      decide (s.problems = [] ∧ ∀ e ∈ s.symbols.entries, Symbol.Table.atEnd e = []) &&
        (placed? s).any P) = some true) :
    ∃ log unit, d.compile {} Prose.verbatim = (log, .ok unit) ∧ P unit = true := by
  obtain ⟨s, run, check⟩ := Option.map_eq_some_iff.mp check
  obtain ⟨accepted, fits⟩ := Bool.and_eq_true_iff.mp check
  obtain ⟨fine, names⟩ := of_decide_eq_true accepted
  obtain ⟨hread, haccept⟩ := accept_of_done (Outcome.eq_done run) fine names {}
  have parsed : d.parse {} = ((Reading.ofState s).notes, .ok ⟨s.code, s.symbols⟩) := by
    simp only [Document.parse, hread, haccept]
  obtain ⟨unit, found, holds⟩ := (Option.any_eq_true _ _).mp fits
  unfold placed? at found
  split at found
  · contradiction
  next code compressed =>
  split at found
  · next more image placed =>
    cases found
    refine ⟨(Reading.ofState s).notes ++ Fusion.notes s.code ++ more, _, ?_, holds⟩
    simp only [Document.compile, parsed, compressed, placed]
  · contradiction

theorem compile_twoLists : ∃ log unit, twoLists.compile {} Prose.verbatim = (log, .ok unit) ∧
    unit.symbols.slot? "x" = some 250 ∧ unit.symbols.length? "row" = some 4 ∧
    unit.image.arrays = [("row", ⟨0, 0xC002⟩)] := by
  obtain ⟨log, unit, compiled, names⟩ := compile_of_check (d := twoLists)
    (P := fun unit => decide (unit.symbols.slot? "x" = some 250 ∧
      unit.symbols.length? "row" = some 4 ∧ unit.image.arrays = [("row", ⟨0, 0xC002⟩)]))
    (by decide +kernel)
  exact ⟨log, unit, compiled, of_decide_eq_true names⟩

/-- What is in memory for the first list. -/
theorem holds_lastVariables {unit : Compilation} (slot : unit.symbols.slot? "x" = some 250)
    (h : Stored {} unit lastVariables threeValues) :
    Holds unit [.code .PUSH_D [[1]], .code .POP_SET [[253]], .code .PUSH_D [[5]],
      .code .POP_SET [[254]], .code .PUSH_I [[9]], .code .POP_SET [[255]]] := by
  obtain ⟨runs, store, holds, computed, places, -⟩ := h
  obtain _ | ⟨one, _ | ⟨sum, _ | ⟨content, _ | _⟩⟩⟩ := computed
  obtain rfl := one.eq_of_eval rfl rfl
  obtain rfl := sum.eq_of_eval rfl rfl
  obtain rfl := content.eq_of_counts (.slot 9)
  cases places with
  | «variable» counts displaced fits =>
    cases counts with
    | named found =>
      cases displaced with
      | counted _ known _ =>
        obtain rfl := Option.some.inj (slot.symm.trans found)
        obtain rfl := Option.some.inj known
        exact holds

theorem holds_lastElements {unit : Compilation}
    (arrays : unit.image.arrays = [("row", ⟨0, 0xC002⟩)])
    (h : Stored {} unit lastElements threeNumbers) :
    Holds unit [.code .PUSH_D [[6]], .code .POP_SET_A [[0, 3, 0xC0]], .code .PUSH_D [[7]],
      .code .POP_SET_A [[0, 4, 0xC0]], .code .PUSH_D [[8]], .code .POP_SET_A [[0, 5, 0xC0]]] := by
  obtain ⟨runs, store, holds, computed, places, -⟩ := h
  obtain _ | ⟨six, _ | ⟨seven, _ | ⟨eight, _ | _⟩⟩⟩ := computed
  obtain rfl := six.eq_of_eval rfl rfl
  obtain rfl := seven.eq_of_eval rfl rfl
  obtain rfl := eight.eq_of_eval rfl rfl
  cases places with
  | element _ listed _ _ _ _ known _ _ _ =>
    rw [arrays, List.mem_singleton] at listed
    cases listed
    obtain rfl := Option.some.inj known
    exact holds

/-- The lists are stored to the variables 253, 254 and 255 and to the last three elements. -/
theorem assignment_stores_twoLists :
    ∃ log unit, twoLists.compile {} Prose.verbatim = (log, .ok unit) ∧
      (Assigns unit.symbols (twoLists.scan.drop 13) lastVariables threeValues ∧
        Holds unit [.code .PUSH_D [[1]], .code .POP_SET [[253]], .code .PUSH_D [[5]],
          .code .POP_SET [[254]], .code .PUSH_I [[9]], .code .POP_SET [[255]]]) ∧
      (Assigns unit.symbols (twoLists.scan.drop 30) lastElements threeNumbers ∧
        Holds unit [.code .PUSH_D [[6]], .code .POP_SET_A [[0, 3, 0xC0]], .code .PUSH_D [[7]],
          .code .POP_SET_A [[0, 4, 0xC0]], .code .PUSH_D [[8]],
          .code .POP_SET_A [[0, 5, 0xC0]]]) := by
  obtain ⟨log, unit, compiled, slot, length, arrays⟩ := compile_twoLists
  have first : Assigns unit.symbols (twoLists.scan.drop 13) lastVariables threeValues := by
    refine ⟨_, _, (List.take_append_drop 15 _).symm, written_lastVariables, ?_, ?_⟩
    · intro name named
      cases named
      simp [slot]
    · exact .inr ⟨.colon, spot 28, (twoLists.scan.drop 29), by decide +kernel, rfl⟩
  have second : Assigns unit.symbols (twoLists.scan.drop 30) lastElements threeNumbers := by
    refine ⟨_, _, (List.take_append_drop 12 _).symm, written_lastElements, ?_, ?_⟩
    · simp [Destination.Declared, lastElements, length]
    · exact .inr ⟨.closeCode, spot 42, (twoLists.scan.drop 43), by decide +kernel, rfl⟩
  have set : twoLists.scan = twoLists.scan.take 12 ++
      ⟨.ok (.keyword .SET), spot 12⟩ :: twoLists.scan.drop 13 := by decide +kernel
  have assigned : twoLists.scan = twoLists.scan.take 29 ++
      ⟨.ok (.keyword .LET), spot 29⟩ :: twoLists.scan.drop 30 := by decide +kernel
  have stored := (assignment_stores compiled set (.inl rfl)).2 _ _ first
  have stored' := (assignment_stores compiled assigned (.inr rfl)).2 _ _ second
  exact ⟨log, unit, compiled, ⟨first, holds_lastVariables slot stored⟩,
    ⟨second, holds_lastElements arrays stored'⟩⟩

end Grammar

end Gamebook
