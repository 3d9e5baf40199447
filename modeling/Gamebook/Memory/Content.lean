import Gamebook.Memory.Placement

/-!
# What the banks hold

The program comes first in its banks, and every block of data lies behind what was in its bank
before it. `Allocation.contents` gives the bytes of all banks, with those that were added for data
alone.
-/

namespace Gamebook.Memory

/-- The memory that is left for data when a program is placed under these options: banks that are
added have the window of the last bank. -/
def Options.budget (o : Options) (maxBanks : Nat) : Budget :=
  let last := o.windows.getLast?.getD .standard
  ⟨maxBanks, last.capacity, last.base⟩

/-- Puts the bytes of each block behind what its bank holds, block after block. -/
def fillBanks (banks : List (List UInt8)) : List Placement → List (List UInt8) → List (List UInt8)
  | p :: placements, bytes :: data =>
    fillBanks (banks.modify p.bank (· ++ bytes)) placements data
  | _, _ => banks

namespace Allocation

/-- The bytes of every bank: the program, and then the blocks, whose bytes are `data`. -/
def contents (a : Allocation) (code : List Bank) (data : List (List UInt8)) :
    List (List UInt8) :=
  let program := code.map (·.bytes)
  fillBanks (program ++ List.replicate (a.banks.length - program.length) []) a.placements data

end Allocation

end Gamebook.Memory
