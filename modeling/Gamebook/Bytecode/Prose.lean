import Gamebook.Bytecode.Instruction

/-!
# The prose of a program

The texts of a program can be taken out, compressed by any means, and put back in their places. A
compressed text may hold any byte but the one that ends texts.
-/

namespace Gamebook.Prose

/-- Why compressed texts cannot be put back. -/
inductive ProseError where
  | countMismatch (expected found : Nat)
  /-- The text with this number holds the byte that ends texts. -/
  | terminator (index : Nat)
deriving DecidableEq

/-- The wording of the error. -/
def ProseError.message : ProseError → String
  | .countMismatch expected found =>
    "Text compressor returned " ++ toString found ++ " texts, expected " ++ toString expected
  | .terminator index =>
    "Compressed text " ++ toString index ++ " contains the terminator byte"

/-- A way to compress all texts of a program at once. -/
abbrev Compressor := List (List UInt8) → List (List UInt8)

/-- Leaves every text as it is. -/
def verbatim : Compressor := id

/-- The texts of a program, in order. -/
def texts (code : List Instruction) : List (List UInt8) :=
  code.filterMap fun
    | .text bytes => some bytes
    | _ => none

/-- Puts other texts in the places of the texts of a program. -/
def replace : List Instruction → List (List UInt8) → List Instruction
  | .text _ :: code, t :: ts => .text t :: replace code ts
  | i :: code, ts => i :: replace code ts
  | [], _ => []

/-- Why the new texts cannot stand in the places of the old ones. -/
def refusal? (old new : List (List UInt8)) : Option ProseError :=
  if new.length ≠ old.length then some (.countMismatch old.length new.length)
  else (new.findIdx? (·.contains 0x00)).map .terminator

/-- Puts the compressed texts of a program in the places of its texts. A program whose texts cannot
be put back stays as it is. -/
def substitute (compressor : Compressor) : ExceptT ProseError (StateM (List Instruction)) Unit := do
  let old := texts (← get)
  let new := compressor old
  match refusal? old new with
  | some e => throw e
  | none => modify (replace · new)

/-- Compresses all texts of a program. -/
def compress (compressor : Compressor) (code : List Instruction) :
    Except ProseError (List Instruction) :=
  let (outcome, code) := (substitute compressor).run.run code
  outcome.map fun _ => code

end Gamebook.Prose
