import Gamebook.Memory.Image

/-!
# Placing pictures and music

Blocks of data are placed in what is left of the banks. Each goes to the bank where it leaves the
least room, the first one of equals. If a block fits nowhere, an empty bank is added and everything
is placed anew, for as long as there are banks.
-/

namespace Gamebook.Memory

/-- What a block of data is. -/
inductive BlockKind where
  | image
  | track
deriving DecidableEq

namespace BlockKind

/-- The byte that stands for the kind. -/
def code : BlockKind → UInt8
  | image => 1
  | track => 2

/-- The name of the kind. -/
def name : BlockKind → String
  | image => "image"
  | track => "track"

end BlockKind

/-- A block of data, by its size. -/
structure Block where
  kind : BlockKind
  id : Nat
  size : Nat
deriving DecidableEq

/-- The memory of the target. -/
structure Budget where
  /-- How many banks there are, with those of the program. -/
  maxBanks : Nat := 8
  /-- The size of a bank that is added. -/
  bankSize : Nat := 16384
  /-- The first address of a bank that is added. -/
  bankBase : Nat := 0xC000

/-- How full a bank is. -/
structure BankUsage where
  base : Nat
  used : Nat
  free : Nat
deriving DecidableEq

/-- How full a bank of the program is. -/
def BankUsage.ofBank (b : Bank) : BankUsage := ⟨b.window.base, b.bytes.length, b.free⟩

/-- Where a block was placed. -/
structure Placement where
  block : Block
  bank : Nat
  address : UInt16
deriving DecidableEq

/-- Where all blocks were placed, and how full the banks are then. -/
structure Allocation where
  placements : List Placement
  banks : List BankUsage
deriving DecidableEq

/-- Why blocks cannot be placed. -/
inductive PlacementError where
  | notEnoughMemory
  | addressOverflow (kind : BlockKind) (id : Nat)
deriving DecidableEq

/-- The wording of the error. -/
def PlacementError.message : PlacementError → String
  | .notEnoughMemory => "Not enough memory available"
  | .addressOverflow kind id =>
    kind.name ++ " " ++ toString id ++ " ends past the end of the address space"

/-- The bank where a block of `size` bytes leaves the least room, and the bytes free there, among
the banks from number `index` on. -/
def bestBank (size : Nat) (index : Nat) : List BankUsage → Option (Nat × Nat)
  | [] => none
  | b :: bs =>
    match bestBank size (index + 1) bs with
    | some (i, free) =>
      if size ≤ b.free ∧ b.free ≤ free then some (index, b.free) else some (i, free)
    | none => if size ≤ b.free then some (index, b.free) else none

/-- A bank with `size` more bytes in use. -/
def BankUsage.fill (b : BankUsage) (size : Nat) : BankUsage :=
  { b with used := b.used + size, free := b.free - size }

/-- Places blocks in the banks there are, or finds that one fits nowhere. -/
def bestFit (banks : List BankUsage) : List Block → Except PlacementError (Option Allocation)
  | [] => .ok (some ⟨[], banks⟩)
  | block :: blocks =>
    match bestBank block.size 0 banks with
    | none => .ok none
    | some (index, _) =>
      match banks[index]? with
      | none => .ok none
      | some bank =>
        let address := bank.base + bank.used
        if addressEnd < address + block.size then
          .error (.addressOverflow block.kind block.id)
        else
          match bestFit (banks.set index (bank.fill block.size)) blocks with
          | .ok (some rest) =>
            .ok (some { rest with
              placements := ⟨block, index, address.toUInt16⟩ :: rest.placements })
          | other => other

/-- The banks of the program and `extra` empty ones. -/
def withExtra (code : List BankUsage) (budget : Budget) (extra : Nat) : List BankUsage :=
  code ++ List.replicate extra ⟨budget.bankBase, 0, budget.bankSize⟩

/-- Tries with `extra` banks more than the program has, and then with one more at a time; `spare`
is how often a bank can still be added. -/
def allocateFrom (code : List BankUsage) (blocks : List Block) (budget : Budget) :
    (spare extra : Nat) → Except PlacementError Allocation
  | 0, extra => do
    match ← bestFit (withExtra code budget extra) blocks with
    | some a => .ok a
    | none => .error .notEnoughMemory
  | spare + 1, extra => do
    match ← bestFit (withExtra code budget extra) blocks with
    | some a => .ok a
    | none => allocateFrom code blocks budget spare (extra + 1)

/-- Places every block. -/
def allocate (code : List BankUsage) (blocks : List Block) (budget : Budget) :
    Except PlacementError Allocation :=
  if budget.maxBanks < code.length then .error .notEnoughMemory
  else allocateFrom code blocks budget (budget.maxBanks - code.length) 0

/-- What is noted once every block has its place; `code` is how many banks the program has. -/
def Allocation.notes (a : Allocation) (code : Nat) : Log :=
  [⟨.debug, .placement, "allocator: " ++ toString a.placements.length ++ " blocks in " ++
    toString a.banks.length ++ " banks (" ++ toString (a.banks.length - code) ++ " added)"⟩]

end Gamebook.Memory
