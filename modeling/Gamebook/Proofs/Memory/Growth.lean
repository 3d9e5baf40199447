import Gamebook.Proofs.Memory.Placement

/-!
# How many banks the blocks need

Where the blocks go is found out anew for every number of banks, and a block may go elsewhere if
there is one bank more. Still the number of banks that is settled on is the least one that will do
(`allocate_cases`), because all smaller ones were tried before.

One bank for each block is always enough, if no block is larger than a bank: placing a block changes
one bank only, so as many banks are still empty as there are blocks to come
(`bestFit_ne_none`). And a block for which no bank has room in the beginning finds none later,
whatever is placed before it (`Placing.exists_room`).
-/

namespace Gamebook.Memory

/-! ## Enough room -/

/-- A bank that is filled is at most one less with room for `size` bytes. -/
theorem countP_le_of_set {k : Nat} {banks : List BankUsage} (size : Nat) (bank : BankUsage)
    (lt : k < banks.length) :
    banks.countP (size ≤ ·.free) ≤ (banks.set k bank).countP (size ≤ ·.free) + 1 := by
  rw [List.countP_set lt]
  split <;> omega

/-- If as many banks have room for the largest block as there are blocks, every block fits
somewhere. -/
theorem bestFit_ne_none {size : Nat} {banks : List BankUsage} {blocks : List Block}
    (small : ∀ block ∈ blocks, block.size ≤ size)
    (enough : blocks.length ≤ banks.countP (size ≤ ·.free)) : bestFit banks blocks ≠ .ok none := by
  induction blocks generalizing banks with
  | nil => exact fun h => by cases h
  | cons block blocks ih =>
    obtain ⟨fits, small⟩ := List.forall_mem_cons.mp small
    rw [List.length_cons] at enough
    rcases bestFit_cons banks block blocks with ⟨full, -⟩ | ⟨k, bank, found, -, step⟩
    · obtain ⟨bank, mem, room⟩ := List.countP_pos_iff.mp (Nat.lt_of_lt_of_le (by omega) enough)
      have room : size ≤ bank.free := of_decide_eq_true room
      have := full bank mem
      omega
    · have fewer := countP_le_of_set size (bank.fill block.size)
        (List.getElem?_eq_some_iff.mp found).1
      rw [step]
      split
      · exact fun h => by cases h
      · exact fun h => ih small (by omega) (map_behind_eq_none h)

/-- A block that is placed had room from the beginning. -/
theorem Placing.exists_room {banks after : List BankUsage} {placements : List Placement}
    (h : Placing banks placements after) :
    ∀ p ∈ placements, ∃ bank ∈ banks, p.block.size ≤ bank.free := by
  induction h with
  | done => exact List.forall_mem_nil _
  | @place banks after k bank block placements found fits _ _ ih =>
    have mem := List.mem_of_getElem? found
    refine List.forall_mem_cons.mpr ⟨⟨bank, mem, fits⟩, fun p hp => ?_⟩
    obtain ⟨bank', mem', fits'⟩ := ih p hp
    rcases List.mem_or_eq_of_mem_set mem' with old | rfl
    · exact ⟨bank', old, fits'⟩
    · exact ⟨bank, mem, Nat.le_trans fits' (Nat.sub_le _ _)⟩

/-! ## The least number of banks -/

/-- The numbers of banks that are enough, the banks of the program among them. -/
def sufficient (code : List BankUsage) (blocks : List Block) (budget : Budget) : Set Nat :=
  {n | code.length ≤ n ∧ n ≤ budget.maxBanks ∧
    ∃ a, bestFit (withExtra code budget (n - code.length)) blocks = .ok (some a)}

section Least

variable {code : List BankUsage} {blocks : List Block} {budget : Budget}

theorem length_banks_of_bestFit {extra : Nat} {a : Allocation}
    (h : bestFit (withExtra code budget extra) blocks = .ok (some a)) :
    a.banks.length = code.length + extra := by
  rw [(bestFit_eq_ok h).1.length_eq, withExtra, List.length_append, List.length_replicate]

/-- No number of banks is enough for a block that is larger than any of them. -/
theorem not_mem_sufficient {block : Block} (mem : block ∈ blocks)
    (large : budget.bankSize < block.size) (full : ∀ bank ∈ code, bank.free < block.size)
    (n : Nat) : n ∉ sufficient code blocks budget := by
  rintro ⟨-, -, a, placed⟩
  obtain ⟨placing, same⟩ := bestFit_eq_ok placed
  rw [← same] at mem
  obtain ⟨p, hp, rfl⟩ := List.mem_map.mp mem
  obtain ⟨bank, among, room⟩ := placing.exists_room p hp
  rcases List.mem_append.mp among with among | among
  · have := full bank among
    omega
  · obtain rfl := List.eq_of_mem_replicate among
    exact absurd room (Nat.not_le.mpr large)

/-- The attempt that succeeds is made with the least number of banks that is enough. -/
theorem isLeast_of_attempt {more : Nat} {a : Allocation} (le : code.length + more ≤ budget.maxBanks)
    (before : ∀ m < more, bestFit (withExtra code budget m) blocks = .ok none)
    (attempt : bestFit (withExtra code budget more) blocks = .ok (some a)) :
    IsLeast (sufficient code blocks budget) (code.length + more) := by
  refine ⟨⟨Nat.le_add_right _ _, le, a, by rwa [Nat.add_sub_cancel_left]⟩, ?_⟩
  rintro n ⟨lower, -, a', placed⟩
  by_contra fewer
  rw [before (n - code.length) (by omega)] at placed
  cases placed

variable (within : ∀ bank ∈ code, bank.base + bank.used + bank.free ≤ addressEnd)
  (added : budget.bankBase + budget.bankSize ≤ addressEnd)

include within added

/-- Blocks that are no larger than a bank need no more than one bank each. -/
theorem add_length_mem_sufficient (small : ∀ block ∈ blocks, block.size ≤ budget.bankSize)
    (few : code.length + blocks.length ≤ budget.maxBanks) :
    code.length + blocks.length ∈ sufficient code blocks budget := by
  refine ⟨Nat.le_add_right _ _, few, ?_⟩
  rw [Nat.add_sub_cancel_left]
  have enough : blocks.length ≤
      (withExtra code budget blocks.length).countP (budget.bankSize ≤ ·.free) := by
    rw [withExtra, List.countP_append, List.countP_replicate, if_pos (by simp)]
    exact Nat.le_add_left _ _
  rcases attempt : bestFit (withExtra code budget blocks.length) blocks with error | _ | a
  · exact absurd attempt (bestFit_ne_error (withExtra_within within added _))
  · exact absurd attempt (bestFit_ne_none small enough)
  · exact ⟨a, rfl⟩

/-- Either the blocks are placed in the least number of banks that is enough, or no number is. -/
theorem allocate_cases (blocks : List Block) :
    (∃ a, allocate code blocks budget = .ok a ∧
      IsLeast (sufficient code blocks budget) a.banks.length ∧
      bestFit (withExtra code budget (a.banks.length - code.length)) blocks = .ok (some a)) ∨
    (∀ n, n ∉ sufficient code blocks budget) ∧
      allocate code blocks budget = .error .notEnoughMemory := by
  unfold allocate
  split
  · refine .inr ⟨?_, rfl⟩
    rintro n ⟨lower, upper, -⟩
    omega
  · rcases allocateFrom_cases code blocks budget (budget.maxBanks - code.length) 0 with
      ⟨more, le, before, attempt⟩ | ⟨all, failed⟩
    · simp only [Nat.zero_add] at before attempt
      cases result : allocateFrom code blocks budget (budget.maxBanks - code.length) 0 with
      | error error =>
        rw [result] at attempt
        exact absurd attempt (bestFit_ne_error (withExtra_within within added more))
      | ok a =>
        rw [result] at attempt
        refine .inl ⟨a, rfl, ?_⟩
        rw [length_banks_of_bestFit attempt, Nat.add_sub_cancel_left]
        exact ⟨isLeast_of_attempt (by omega) before attempt, attempt⟩
    · refine .inr ⟨?_, failed⟩
      rintro n ⟨-, upper, a, placed⟩
      have nowhere := all (n - code.length) (by omega)
      rw [Nat.zero_add, placed] at nowhere
      cases nowhere

end Least

/-- If some number of banks is enough for the blocks, from those of the program up to the greatest
number there is, they are placed in the least such number, exactly as they are placed in that many
banks; memory is missing exactly if there is no such number. It is never missing, and no more than
one bank for each block is added, if no block is larger than a bank and there are as many banks; it
is always missing if a block is larger than a bank and than what the program leaves free in each of
its own. -/
theorem allocation_least {code : List BankUsage} {budget : Budget}
    (within : ∀ bank ∈ code, bank.base + bank.used + bank.free ≤ 0x10000)
    (added : budget.bankBase + budget.bankSize ≤ 0x10000) (blocks : List Block) :
    ((∃ n, n ∈ sufficient code blocks budget) →
      ∃ a, allocate code blocks budget = .ok a ∧
        IsLeast (sufficient code blocks budget) a.banks.length ∧
        bestFit (withExtra code budget (a.banks.length - code.length)) blocks = .ok (some a)) ∧
    (allocate code blocks budget = .error .notEnoughMemory ↔
      ¬ ∃ n, n ∈ sufficient code blocks budget) ∧
    ((∀ block ∈ blocks, block.size ≤ budget.bankSize) →
      code.length + blocks.length ≤ budget.maxBanks →
      ∃ a, allocate code blocks budget = .ok a ∧
        a.banks.length ≤ code.length + blocks.length) ∧
    ((∃ block ∈ blocks, budget.bankSize < block.size ∧ ∀ bank ∈ code, bank.free < block.size) →
      allocate code blocks budget = .error .notEnoughMemory) := by
  rcases allocate_cases within added blocks with ⟨a, ok, least, attempt⟩ | ⟨none, failed⟩
  · have succeeds : allocate code blocks budget ≠ .error .notEnoughMemory := by
      rw [ok]
      exact fun h => by cases h
    refine ⟨fun _ => ⟨a, ok, least, attempt⟩, iff_of_false succeeds (not_not.mpr ⟨_, least.1⟩),
      fun small few => ⟨a, ok, least.2 (add_length_mem_sufficient within added small few)⟩, ?_⟩
    rintro ⟨block, mem, large, full⟩
    exact absurd least.1 (not_mem_sufficient mem large full _)
  · refine ⟨fun ⟨n, h⟩ => absurd h (none n), iff_of_true failed (fun ⟨n, h⟩ => none n h),
      fun small few => ?_, fun _ => failed⟩
    exact absurd (add_length_mem_sufficient within added small few) (none _)

/-- A block that is larger than an empty bank. -/
def hugeBlock : Block := ⟨.image, 3, 20000⟩

theorem allocation_least_tightBanks :
    (∃ a, allocate tightBanks mixedBlocks {} = .ok a ∧
      IsLeast (sufficient tightBanks mixedBlocks {}) a.banks.length ∧ a.banks.length = 3) ∧
    allocate tightBanks (mixedBlocks ++ [hugeBlock]) {} = .error .notEnoughMemory := by
  have within : ∀ bank ∈ tightBanks, bank.base + bank.used + bank.free ≤ 0x10000 := by decide
  have added : ({} : Budget).bankBase + ({} : Budget).bankSize ≤ 0x10000 := by decide
  have placed : allocate tightBanks mixedBlocks {} = .ok tightAllocation := by decide
  obtain ⟨some, -⟩ := allocation_least within added mixedBlocks
  obtain ⟨a, ok, least, -⟩ := some ⟨3, by decide, by decide, tightAllocation, by decide⟩
  obtain rfl : a = tightAllocation := Except.ok.inj (ok.symm.trans placed)
  refine ⟨⟨tightAllocation, ok, least, rfl⟩, ?_⟩
  exact (allocation_least within added _).2.2.2
    ⟨hugeBlock, List.mem_append_right _ List.mem_cons_self, by decide, by decide⟩

end Gamebook.Memory
