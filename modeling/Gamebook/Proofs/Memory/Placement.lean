import Mathlib.Data.List.Chain
import Mathlib.Order.CompletePartialOrder
import Mathlib.Order.Interval.Set.Disjoint
import Gamebook.Memory.Placement

/-!
# Blocks behind the program

Blocks are placed one after the other, each in a bank with room for it, behind all that lies there
by then (`bestFit_cons`, `Placing`). So what becomes of a bank depends on the blocks that go there
and on nothing else: they lie one behind the other from the end of the program on (`Stacked`), and
the bytes they take are no longer free (`BankUsage.Filled`).

If a block fits nowhere, all of them are placed anew with one bank more. What remains in the end is
the one attempt that succeeds (`allocate_eq_ok`), so nothing of this is lost: `allocation_sound`.

The address of a block is a word. That is enough for every byte of a block, but not for the place
behind the last byte there is, which is where a block without bytes may lie (`address_exact_iff`).
-/

namespace Gamebook.Memory

/-! ## One block -/

/-- The bank that is chosen has room. -/
theorem bestBank_eq_some {size index i free : Nat} {banks : List BankUsage}
    (h : bestBank size index banks = some (i, free)) :
    ∃ k bank, i = index + k ∧ banks[k]? = some bank ∧ size ≤ bank.free := by
  fun_induction bestBank size index banks generalizing i free with
  | case1 => contradiction
  | case2 index b bs _ _ _ fits ih =>
    obtain ⟨rfl, -⟩ := Prod.mk.inj (Option.some.inj h)
    exact ⟨0, b, rfl, rfl, fits.1⟩
  | case3 index b bs _ _ rest _ ih =>
    obtain ⟨k, bank, rfl, found, fits⟩ := ih (rest.trans h)
    exact ⟨k + 1, bank, by omega, found, fits⟩
  | case4 index b bs _ fits ih =>
    obtain ⟨rfl, -⟩ := Prod.mk.inj (Option.some.inj h)
    exact ⟨0, b, rfl, rfl, fits⟩
  | case5 => contradiction

/-- If no bank is chosen, none has room. -/
theorem bestBank_eq_none {size index : Nat} {banks : List BankUsage}
    (h : bestBank size index banks = none) : ∀ bank ∈ banks, bank.free < size := by
  fun_induction bestBank size index banks with
  | case1 => exact List.forall_mem_nil _
  | case2 => contradiction
  | case3 => contradiction
  | case4 => contradiction
  | case5 index b bs rest full ih => exact List.forall_mem_cons.mpr ⟨by omega, ih rest⟩

/-- The same blocks with one more in front. -/
def Allocation.behind (a : Allocation) (p : Placement) : Allocation :=
  { a with placements := p :: a.placements }

theorem map_behind_eq_ok {x : Except PlacementError (Option Allocation)} {p : Placement}
    {a : Allocation} (h : x.map (·.map (·.behind p)) = .ok (some a)) :
    ∃ a', x = .ok (some a') ∧ a'.behind p = a := by
  rcases x with error | _ | a'
  · cases h
  · cases h
  · exact ⟨a', rfl, Option.some.inj (Except.ok.inj h)⟩

theorem map_behind_eq_error {x : Except PlacementError (Option Allocation)} {p : Placement}
    {error : PlacementError} (h : x.map (·.map (·.behind p)) = .error error) :
    x = .error error := by
  cases x with
  | error error' => exact congrArg _ (Except.error.inj h)
  | ok a => cases h

theorem map_behind_eq_none {x : Except PlacementError (Option Allocation)} {p : Placement}
    (h : x.map (·.map (·.behind p)) = .ok none) : x = .ok none := by
  rcases x with error | _ | a
  · cases h
  · rfl
  · cases h

/-- A block that fits somewhere goes behind all that its bank holds, and then the others are
placed. -/
theorem bestFit_cons (banks : List BankUsage) (block : Block) (blocks : List Block) :
    (∀ bank ∈ banks, bank.free < block.size) ∧ bestFit banks (block :: blocks) = .ok none ∨
    ∃ k bank, banks[k]? = some bank ∧ block.size ≤ bank.free ∧
      bestFit banks (block :: blocks) =
        if addressEnd < bank.base + bank.used + block.size then
          .error (.addressOverflow block.kind block.id)
        else (bestFit (banks.set k (bank.fill block.size)) blocks).map
          (·.map (·.behind ⟨block, k, (bank.base + bank.used).toUInt16⟩)) := by
  rw [bestFit]
  cases best : bestBank block.size 0 banks with
  | none => exact .inl ⟨bestBank_eq_none best, rfl⟩
  | some choice =>
    obtain ⟨k, bank, index, found, fits⟩ := bestBank_eq_some best
    obtain rfl : choice.1 = k := by omega
    refine .inr ⟨choice.1, bank, found, fits, ?_⟩
    simp only [found]
    split
    · rfl
    · rcases bestFit (banks.set choice.1 (bank.fill block.size)) blocks with error | _ | rest
      all_goals rfl

/-! ## All blocks -/

/-- Blocks are placed one after the other, which takes the banks from one state to another. -/
inductive Placing : List BankUsage → List Placement → List BankUsage → Prop
  | done (banks : List BankUsage) : Placing banks [] banks
  | place {banks after : List BankUsage} {k : Nat} {bank : BankUsage} {block : Block}
    {placements : List Placement} :
    banks[k]? = some bank → block.size ≤ bank.free →
      bank.base + bank.used + block.size ≤ addressEnd →
      Placing (banks.set k (bank.fill block.size)) placements after →
      Placing banks (⟨block, k, (bank.base + bank.used).toUInt16⟩ :: placements) after

theorem bestFit_eq_ok {banks : List BankUsage} {blocks : List Block} {a : Allocation}
    (h : bestFit banks blocks = .ok (some a)) :
    Placing banks a.placements a.banks ∧ a.placements.map (·.block) = blocks := by
  induction blocks generalizing banks a with
  | nil =>
    obtain rfl := Option.some.inj (Except.ok.inj h)
    exact ⟨.done banks, rfl⟩
  | cons block blocks ih =>
    rcases bestFit_cons banks block blocks with ⟨-, nowhere⟩ | ⟨k, bank, found, fits, step⟩
    · rw [nowhere] at h
      cases h
    · rw [step] at h
      split at h
      · contradiction
      · next within =>
        obtain ⟨a', rest, rfl⟩ := map_behind_eq_ok h
        obtain ⟨placing, same⟩ := ih rest
        exact ⟨.place found fits (by omega) placing, congrArg (block :: ·) same⟩

/-- If every bank ends within the address space, then so does every block. -/
theorem bestFit_ne_error {banks : List BankUsage} {blocks : List Block} {error : PlacementError}
    (within : ∀ bank ∈ banks, bank.base + bank.used + bank.free ≤ addressEnd) :
    bestFit banks blocks ≠ .error error := by
  induction blocks generalizing banks with
  | nil => exact fun h => by contradiction
  | cons block blocks ih =>
    intro h
    rcases bestFit_cons banks block blocks with ⟨-, nowhere⟩ | ⟨k, bank, found, fits, step⟩
    · rw [nowhere] at h
      contradiction
    · have here := within bank (List.mem_of_getElem? found)
      rw [step, if_neg (by omega)] at h
      refine ih (fun b mem => ?_) (map_behind_eq_error h)
      rcases List.mem_or_eq_of_mem_set mem with mem | rfl
      · exact within b mem
      · simp only [BankUsage.fill]
        omega

namespace Placing

variable {banks after : List BankUsage} {placements : List Placement}

theorem length_eq (h : Placing banks placements after) : after.length = banks.length := by
  induction h with
  | done => rfl
  | place _ _ _ _ ih => rw [ih, List.length_set]

theorem bank_lt (h : Placing banks placements after) :
    ∀ p ∈ placements, p.bank < banks.length := by
  induction h with
  | done => exact List.forall_mem_nil _
  | place found _ _ _ ih =>
    rw [List.length_set] at ih
    exact List.forall_mem_cons.mpr ⟨(List.getElem?_eq_some_iff.mp found).1, ih⟩

end Placing

/-! ## One bank -/

/-- How many bytes blocks take together. -/
def blocksSize (placements : List Placement) : Nat := placements.foldr (·.block.size + ·) 0

theorem blocksSize_cons (p : Placement) (ps : List Placement) :
    blocksSize (p :: ps) = p.block.size + blocksSize ps := rfl

/-- The blocks lie one behind the other from an address on, and end within the address space. -/
def Stacked (address : Nat) : List Placement → Prop
  | [] => True
  | p :: ps => p.address = address.toUInt16 ∧ address + p.block.size ≤ addressEnd ∧
      Stacked (address + p.block.size) ps

/-- What placing blocks in a bank makes of it. -/
structure BankUsage.Filled (start : BankUsage) (placements : List Placement) (final : BankUsage) :
    Prop where
  base_eq : final.base = start.base
  used_eq : final.used = start.used + blocksSize placements
  total_eq : final.used + final.free = start.used + start.free
  stacked : Stacked (start.base + start.used) placements

/-- Of all the blocks that are placed, those in one bank say what becomes of it. -/
theorem Placing.filled {banks after : List BankUsage} {placements : List Placement}
    (h : Placing banks placements after) {k : Nat} {start : BankUsage}
    (hk : banks[k]? = some start) :
    ∃ final, after[k]? = some final ∧ start.Filled (placements.filter (·.bank = k)) final := by
  induction h generalizing start with
  | done banks => exact ⟨start, hk, rfl, rfl, rfl, trivial⟩
  | @place banks after j bank block placements found fits within _ ih =>
    by_cases here : j = k
    · subst here
      obtain rfl : bank = start := Option.some.inj (found.symm.trans hk)
      have filled : (banks.set j (bank.fill block.size))[j]? = some (bank.fill block.size) :=
        List.getElem?_set_self (List.getElem?_eq_some_iff.mp found).1
      obtain ⟨final, found', base, used, total, stacked⟩ := ih filled
      simp only [BankUsage.fill] at base used total stacked
      refine ⟨final, found', base, ?_, ?_, ?_⟩
      · rw [List.filter_cons_of_pos (by simp), blocksSize_cons, used, Nat.add_assoc]
      · omega
      · rw [List.filter_cons_of_pos (by simp)]
        rw [← Nat.add_assoc] at stacked
        exact ⟨rfl, within, stacked⟩
    · have kept : (banks.set j (bank.fill block.size))[k]? = some start := by
        rw [List.getElem?_set_ne here, hk]
      rw [List.filter_cons_of_neg (by simp [here])]
      exact ih kept

namespace Stacked

variable {address : Nat} {ps : List Placement}

/-- Blocks without bytes do not move the others. -/
theorem nonempty (h : Stacked address ps) : Stacked address (ps.filter (0 < ·.block.size)) := by
  induction ps generalizing address with
  | nil => trivial
  | cons p ps ih =>
    obtain ⟨here, within, rest⟩ := h
    by_cases bytes : 0 < p.block.size
    · rw [List.filter_cons_of_pos (by simpa using bytes)]
      exact ⟨here, within, ih rest⟩
    · rw [List.filter_cons_of_neg (by simpa using bytes)]
      have none : p.block.size = 0 := by omega
      rw [none] at rest
      exact ih rest

/-- A block with bytes has the address where it lies. -/
theorem address_eq {p : Placement} (h : Stacked address (p :: ps)) (bytes : 0 < p.block.size) :
    p.address.toNat = address := by
  obtain ⟨here, within, -⟩ := h
  rw [here]
  exact Nat.mod_eq_of_lt (by unfold addressEnd at within; omega)

theorem bounds (h : Stacked address ps) :
    ∀ p ∈ ps, 0 < p.block.size → address ≤ p.address.toNat ∧
      p.address.toNat + p.block.size ≤ address + blocksSize ps ∧
      p.address.toNat + p.block.size ≤ addressEnd := by
  induction ps generalizing address with
  | nil => exact List.forall_mem_nil _
  | cons p ps ih =>
    refine List.forall_mem_cons.mpr ⟨fun bytes => ?_, fun q mem bytes => ?_⟩
    · have here := h.address_eq bytes
      have within := h.2.1
      rw [blocksSize_cons]
      omega
    · have behind := ih h.2.2 q mem bytes
      rw [blocksSize_cons]
      omega

/-- One block ends where the next one begins. -/
theorem isChain (h : Stacked address ps) (bytes : ∀ p ∈ ps, 0 < p.block.size) :
    ps.IsChain fun p q => q.address.toNat = p.address.toNat + p.block.size := by
  induction ps generalizing address with
  | nil => exact .nil
  | cons p ps ih =>
    have tail : ∀ q ∈ ps, 0 < q.block.size := fun q mem => bytes q (List.mem_cons_of_mem p mem)
    have here := h.address_eq (bytes p List.mem_cons_self)
    cases ps with
    | nil => exact .singleton p
    | cons q ps =>
      refine .cons_cons ?_ (ih h.2.2 tail)
      rw [here, address_eq h.2.2 (tail q List.mem_cons_self)]

end Stacked

/-- The addresses of the bytes of a block. -/
def Placement.range (p : Placement) : Set Nat :=
  Set.Ico p.address.toNat (p.address.toNat + p.block.size)

theorem Stacked.disjoint {address : Nat} {ps : List Placement} (h : Stacked address ps)
    (bytes : ∀ p ∈ ps, 0 < p.block.size) :
    ps.Pairwise fun p q => Disjoint p.range q.range := by
  induction ps generalizing address with
  | nil => exact .nil
  | cons p ps ih =>
    have tail : ∀ q ∈ ps, 0 < q.block.size := fun q mem => bytes q (List.mem_cons_of_mem p mem)
    refine .cons (fun q mem => ?_) (ih h.2.2 tail)
    have here := h.address_eq (bytes p List.mem_cons_self)
    have there := (bounds h.2.2 q mem (tail q mem)).1
    exact Set.Ico_disjoint_Ico.mpr (by omega)

/-! ## More banks -/

section Attempts

variable {code : List BankUsage} {blocks : List Block} {budget : Budget}

/-- An attempt that does not fail for want of room is the last one. -/
theorem attempt_eq_map {spare extra : Nat}
    (h : bestFit (withExtra code budget extra) blocks ≠ .ok none) :
    bestFit (withExtra code budget extra) blocks =
      (allocateFrom code blocks budget spare extra).map some := by
  rcases attempt : bestFit (withExtra code budget extra) blocks with error | _ | a
  · cases spare <;> rw [allocateFrom, attempt] <;> rfl
  · contradiction
  · cases spare <;> rw [allocateFrom, attempt] <;> rfl

/-- Banks are added until an attempt does not fail for want of room, and what this one comes to is
the result. If there is no such attempt, there is not enough memory. -/
theorem allocateFrom_cases (code : List BankUsage) (blocks : List Block) (budget : Budget)
    (spare extra : Nat) :
    (∃ more ≤ spare,
      (∀ m < more, bestFit (withExtra code budget (extra + m)) blocks = .ok none) ∧
      bestFit (withExtra code budget (extra + more)) blocks =
        (allocateFrom code blocks budget spare extra).map some) ∨
    (∀ m ≤ spare, bestFit (withExtra code budget (extra + m)) blocks = .ok none) ∧
      allocateFrom code blocks budget spare extra = .error .notEnoughMemory := by
  induction spare generalizing extra with
  | zero =>
    by_cases attempt : bestFit (withExtra code budget extra) blocks = .ok none
    · refine .inr ⟨fun m le => ?_, by rw [allocateFrom, attempt]; rfl⟩
      obtain rfl : m = 0 := by omega
      exact attempt
    · refine .inl ⟨0, Nat.zero_le _, fun m lt => ?_, attempt_eq_map attempt⟩
      exact absurd lt (Nat.not_lt_zero m)
  | succ spare ih =>
    by_cases attempt : bestFit (withExtra code budget extra) blocks = .ok none
    · have again : allocateFrom code blocks budget (spare + 1) extra =
          allocateFrom code blocks budget spare (extra + 1) := by
        rw [allocateFrom, attempt]
        rfl
      rw [again]
      rcases ih (extra + 1) with ⟨more, le, before, result⟩ | ⟨all, result⟩
      · refine .inl ⟨more + 1, by omega, fun m lt => ?_, ?_⟩
        · cases m with
          | zero => exact attempt
          | succ m => exact Nat.add_right_comm extra 1 m ▸ before m (by omega)
        · exact Nat.add_right_comm extra 1 more ▸ result
      · refine .inr ⟨fun m le => ?_, result⟩
        cases m with
        | zero => exact attempt
        | succ m => exact Nat.add_right_comm extra 1 m ▸ all m (by omega)
    · refine .inl ⟨0, Nat.zero_le _, fun m lt => ?_, attempt_eq_map attempt⟩
      exact absurd lt (Nat.not_lt_zero m)

/-- Blocks are placed in the banks of the program and some more that are empty, of which there are
not too many. -/
theorem allocate_eq_ok {a : Allocation} (h : allocate code blocks budget = .ok a) :
    ∃ extra, code.length + extra ≤ budget.maxBanks ∧
      bestFit (withExtra code budget extra) blocks = .ok (some a) := by
  unfold allocate at h
  split at h
  · contradiction
  · rcases allocateFrom_cases code blocks budget (budget.maxBanks - code.length) 0 with
      ⟨more, le, -, attempt⟩ | ⟨-, failed⟩
    · rw [h, Nat.zero_add] at attempt
      exact ⟨more, by omega, attempt⟩
    · rw [h] at failed
      contradiction

theorem withExtra_within
    (within : ∀ bank ∈ code, bank.base + bank.used + bank.free ≤ addressEnd)
    (added : budget.bankBase + budget.bankSize ≤ addressEnd) (extra : Nat) :
    ∀ bank ∈ withExtra code budget extra, bank.base + bank.used + bank.free ≤ addressEnd := by
  intro bank mem
  rcases List.mem_append.mp mem with mem | mem
  · exact within bank mem
  · obtain rfl := List.eq_of_mem_replicate mem
    simpa using added

/-- If the banks end within the address space, only memory can be missing. -/
theorem allocate_ne_addressOverflow
    (within : ∀ bank ∈ code, bank.base + bank.used + bank.free ≤ addressEnd)
    (added : budget.bankBase + budget.bankSize ≤ addressEnd) (kind : BlockKind) (id : Nat) :
    allocate code blocks budget ≠ .error (.addressOverflow kind id) := by
  intro h
  unfold allocate at h
  split at h
  · cases h
  · rcases allocateFrom_cases code blocks budget (budget.maxBanks - code.length) 0 with
      ⟨more, -, -, attempt⟩ | ⟨-, failed⟩
    · rw [h] at attempt
      exact bestFit_ne_error (withExtra_within within added _) attempt
    · rw [h] at failed
      cases failed

end Attempts

/-- A bank is one of those there were, or one that was added. -/
theorem getElem?_append_replicate {α : Type} {banks : List α} {spare start : α} {extra k : Nat}
    (h : (banks ++ List.replicate extra spare)[k]? = some start) :
    banks[k]? = some start ∨ banks.length ≤ k ∧ start = spare := by
  by_cases old : k < banks.length
  · rw [List.getElem?_append_left old] at h
    exact .inl h
  · rw [List.getElem?_append_right (by omega)] at h
    exact .inr ⟨by omega, List.eq_of_mem_replicate (List.mem_of_getElem? h)⟩

/-- The blocks in a bank, in the order in which they were placed. -/
def Allocation.inBank (a : Allocation) (k : Nat) : List Placement :=
  a.placements.filter (·.bank = k)

/-- What the blocks in a bank make of it. -/
theorem filled_of_allocate {code : List BankUsage} {blocks : List Block} {budget : Budget}
    {a : Allocation} (h : allocate code blocks budget = .ok a) {k : Nat} {final : BankUsage}
    (hk : a.banks[k]? = some final) :
    ∃ start : BankUsage, start.Filled (a.inBank k) final ∧
      (code[k]? = some start ∨
        code.length ≤ k ∧ start = ⟨budget.bankBase, 0, budget.bankSize⟩) := by
  obtain ⟨extra, -, placed⟩ := allocate_eq_ok h
  obtain ⟨placing, -⟩ := bestFit_eq_ok placed
  have lt : k < (withExtra code budget extra).length := by
    rw [← placing.length_eq]
    exact (List.getElem?_eq_some_iff.mp hk).1
  have begins := List.getElem?_eq_getElem lt
  obtain ⟨final', hk', filled⟩ := placing.filled begins
  obtain rfl : final' = final := Option.some.inj (hk'.symm.trans hk)
  exact ⟨_, filled, getElem?_append_replicate begins⟩

/-- Every block is placed, in order, and nothing else. No bank of the program is given up, and there
are no more banks than allowed. Every bank begins as a bank of the program or as an empty one,
keeps its size, and uses as many bytes more as its blocks have. Those blocks that have any bytes do
not overlap and lie one behind the other, behind the program, in what the bank uses, and within the
address space. -/
theorem allocation_sound {code : List BankUsage} {blocks : List Block} {budget : Budget}
    {a : Allocation} (h : allocate code blocks budget = .ok a) :
    a.placements.map (·.block) = blocks ∧
    (code.length ≤ a.banks.length ∧ a.banks.length ≤ budget.maxBanks) ∧
    (∀ p ∈ a.placements, p.bank < a.banks.length) ∧
    ∀ k final, a.banks[k]? = some final → ∃ start : BankUsage,
      (code[k]? = some start ∨ code.length ≤ k ∧ start = ⟨budget.bankBase, 0, budget.bankSize⟩) ∧
      final.base = start.base ∧
      final.used + final.free = start.used + start.free ∧
      final.used = start.used + blocksSize (a.inBank k) ∧
      (((a.inBank k).filter (0 < ·.block.size)).Pairwise fun p q => Disjoint p.range q.range) ∧
      (((a.inBank k).filter (0 < ·.block.size)).IsChain fun p q =>
        q.address.toNat = p.address.toNat + p.block.size) ∧
      ∀ p ∈ a.inBank k, 0 < p.block.size →
        start.base + start.used ≤ p.address.toNat ∧
        p.address.toNat + p.block.size ≤ final.base + final.used ∧
        p.address.toNat + p.block.size ≤ 0x10000 := by
  obtain ⟨extra, le, placed⟩ := allocate_eq_ok h
  obtain ⟨placing, same⟩ := bestFit_eq_ok placed
  have count : a.banks.length = code.length + extra := by
    rw [placing.length_eq, withExtra, List.length_append, List.length_replicate]
  refine ⟨same, by omega, fun p mem => ?_, fun k final hk => ?_⟩
  · rw [placing.length_eq]
    exact placing.bank_lt p mem
  · obtain ⟨start, filled, begins⟩ := filled_of_allocate h hk
    have bytes : ∀ p ∈ (a.inBank k).filter (0 < ·.block.size), 0 < p.block.size :=
      fun p mem => of_decide_eq_true (List.mem_filter.mp mem).2
    have stacked := filled.stacked.nonempty
    refine ⟨start, begins, filled.base_eq, filled.total_eq, filled.used_eq,
      stacked.disjoint bytes, stacked.isChain bytes, fun p mem some => ?_⟩
    have bounds := filled.stacked.bounds p mem some
    rw [filled.base_eq, filled.used_eq, ← Nat.add_assoc]
    exact bounds

/-- Two banks of a program, of which the first is nearly full. -/
def tightBanks : List BankUsage := [⟨0xC000, 15884, 500⟩, ⟨0xC000, 14000, 2384⟩]

/-- Blocks for which a bank has to be added. The second one is empty. -/
def mixedBlocks : List Block :=
  [⟨.image, 0, 300⟩, ⟨.image, 1, 0⟩, ⟨.image, 2, 12000⟩, ⟨.track, 0, 200⟩]

/-- Where they lie: the first bank is filled to its end. -/
def tightAllocation : Allocation :=
  ⟨[⟨⟨.image, 0, 300⟩, 0, 0xFE0C⟩, ⟨⟨.image, 1, 0⟩, 0, 0xFF38⟩, ⟨⟨.image, 2, 12000⟩, 2, 0xC000⟩,
      ⟨⟨.track, 0, 200⟩, 0, 0xFF38⟩],
    [⟨0xC000, 16384, 0⟩, ⟨0xC000, 14000, 2384⟩, ⟨0xC000, 12000, 4384⟩]⟩

theorem allocation_sound_tightBanks :
    allocate tightBanks mixedBlocks {} = .ok tightAllocation ∧
      tightAllocation.placements.map (·.block) = mixedBlocks ∧
      (((tightAllocation.inBank 0).filter (0 < ·.block.size)).IsChain fun p q =>
        q.address.toNat = p.address.toNat + p.block.size) := by
  have h : allocate tightBanks mixedBlocks {} = .ok tightAllocation := by decide
  obtain ⟨same, -, -, banks⟩ := allocation_sound h
  obtain ⟨start, -, -, -, -, -, chain, -⟩ := banks 0 _ rfl
  exact ⟨h, same, chain⟩

/-! ## Addresses -/

/-- A block was placed behind all that its bank held by then. -/
theorem Placing.at_placement {banks after : List BankUsage} {before later : List Placement}
    {p : Placement} (h : Placing banks (before ++ p :: later) after) :
    ∃ mid bank, Placing banks before mid ∧ mid[p.bank]? = some bank ∧
      p.address = (bank.base + bank.used).toUInt16 ∧
      bank.base + bank.used + p.block.size ≤ addressEnd := by
  induction before generalizing banks with
  | nil =>
    cases h with
    | @place _ _ _ bank _ _ found _ within _ => exact ⟨banks, bank, .done banks, found, rfl, within⟩
  | cons q before ih =>
    cases h with
    | place found fits within rest =>
      obtain ⟨mid, bank, placing, here⟩ := ih rest
      exact ⟨mid, bank, .place found fits within placing, here⟩

/-- Where a block lies: behind what its bank began with and the blocks that went there before. -/
theorem place_of_allocate {code : List BankUsage} {blocks : List Block} {budget : Budget}
    {a : Allocation} (h : allocate code blocks budget = .ok a) {before later : List Placement}
    {p : Placement} (split : a.placements = before ++ p :: later) :
    ∃ start : BankUsage,
      (code[p.bank]? = some start ∨
        code.length ≤ p.bank ∧ start = ⟨budget.bankBase, 0, budget.bankSize⟩) ∧
      p.address =
        (start.base + (start.used + blocksSize (before.filter (·.bank = p.bank)))).toUInt16 ∧
      start.base + (start.used + blocksSize (before.filter (·.bank = p.bank))) + p.block.size ≤
        addressEnd := by
  obtain ⟨extra, -, placed⟩ := allocate_eq_ok h
  obtain ⟨placing, -⟩ := bestFit_eq_ok placed
  have lt := placing.bank_lt p (by simp [split])
  rw [split] at placing
  obtain ⟨mid, bank, until_here, found, address, within⟩ := placing.at_placement
  have begins := List.getElem?_eq_getElem lt
  obtain ⟨bank', found', filled⟩ := until_here.filled begins
  obtain rfl : bank' = bank := Option.some.inj (found'.symm.trans found)
  rw [filled.base_eq, filled.used_eq] at address within
  exact ⟨_, getElem?_append_replicate begins, address, within⟩

/-- The address of a block is the base of its bank and the bytes that were in use there when it was
placed, unless these go up to the very end of the address space. Then the block has no bytes, and
its address is 0. -/
theorem address_exact_iff {code : List BankUsage} {blocks : List Block} {budget : Budget}
    {a : Allocation} (h : allocate code blocks budget = .ok a) {before later : List Placement}
    {p : Placement} (split : a.placements = before ++ p :: later) :
    ∃ start : BankUsage,
      (code[p.bank]? = some start ∨
        code.length ≤ p.bank ∧ start = ⟨budget.bankBase, 0, budget.bankSize⟩) ∧
      ∃ used, used = start.used + blocksSize (before.filter (·.bank = p.bank)) ∧
        start.base + used + p.block.size ≤ 0x10000 ∧
        (p.address.toNat = start.base + used ↔ start.base + used ≠ 0x10000) ∧
        (start.base + used = 0x10000 → p.block.size = 0 ∧ p.address = 0) := by
  obtain ⟨start, begins, address, within⟩ := place_of_allocate h split
  refine ⟨start, begins, _, rfl, within, ?_, fun full => ?_⟩
  · have cut : p.address.toNat =
        (start.base + (start.used + blocksSize (before.filter (·.bank = p.bank)))) % 0x10000 :=
      congrArg UInt16.toNat address
    rw [cut]
    unfold addressEnd at within
    omega
  · rw [full] at address within
    exact ⟨by unfold addressEnd at within; omega, address⟩

/-- A block without bytes behind others that fill the first bank. -/
def closingBlocks : List Block := mixedBlocks ++ [⟨.track, 1, 0⟩]

/-- It lies at the end of the address space. -/
def closingAllocation : Allocation :=
  { tightAllocation with
    placements := tightAllocation.placements ++ [⟨⟨.track, 1, 0⟩, 0, 0⟩] }

/-- Of the blocks in the first bank, the last but one has the address where it lies, and the last one
has not. -/
theorem address_exact_iff_tightBanks :
    allocate tightBanks closingBlocks {} = .ok closingAllocation ∧
    ∃ start used, tightBanks[0]? = some start ∧ used = start.used + 300 ∧
      (0xFF38 : UInt16).toNat = start.base + used ∧
      start.base + (used + 200) = 0x10000 ∧
      (0 : UInt16).toNat ≠ start.base + (used + 200) := by
  have h : allocate tightBanks closingBlocks {} = .ok closingAllocation := by decide
  obtain ⟨start, begins, used, count, -, exact_iff, -⟩ := address_exact_iff h
    (show _ = tightAllocation.placements.take 3 ++ _ :: _ from rfl)
  obtain ⟨start', begins', used', count', -, exact_iff', -⟩ := address_exact_iff h
    (show _ = tightAllocation.placements ++ _ :: _ from rfl)
  have first {bank : BankUsage}
      (h : tightBanks[0]? = some bank ∨ 2 ≤ 0 ∧ bank = ⟨0xC000, 0, 16384⟩) :
      bank = ⟨0xC000, 15884, 500⟩ := by
    rcases h with found | ⟨more, -⟩
    · exact (Option.some.inj found).symm
    · contradiction
  obtain rfl := first begins
  obtain rfl := first begins'
  obtain rfl : used = 16184 := count
  obtain rfl : used' = 16384 := count'
  exact ⟨h, _, _, rfl, rfl, exact_iff.mpr (by decide), rfl,
    fun same => exact_iff'.mp same rfl⟩

/-- A block without bytes is placed at the end of a bank that ends with the address space, and
given the address 0. -/
theorem emptyBlock_address_wraps :
    allocate [⟨0xC000, 0x4000, 0⟩] [⟨.image, 0, 0⟩] {} =
      .ok ⟨[⟨⟨.image, 0, 0⟩, 0, 0⟩], [⟨0xC000, 0x4000, 0⟩]⟩ ∧
    (0 : UInt16).toNat ≠ 0xC000 + 0x4000 := by
  decide

end Gamebook.Memory
