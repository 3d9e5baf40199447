import Gamebook.Log
import Gamebook.Memory.Layout
import Gamebook.Symbol.Table

/-!
# The bytes of a program

Once every piece has its place, operands become bytes: a label its bank and address, a variable its
number, a constant its value. `generate` lays a program out, encodes every piece, and returns the
banks with the addresses of labels and arrays, the opcodes used, and a listing.
-/

namespace Gamebook.Memory

/-- An address as seen from any bank. -/
structure Address where
  bank : Nat
  address : Nat
deriving DecidableEq

/-- The two bytes of a word, the low one first. -/
def wordBytes (n : Nat) : List UInt8 := [n.toUInt8, (n / 256).toUInt8]

/-- The three bytes of an address. -/
def Address.bytes (a : Address) : List UInt8 := a.bank.toUInt8 :: wordBytes a.address

/-- The address of a byte of a bank. -/
def Place.address (o : Options) (p : Place) : Address :=
  ⟨p.bank, (o.window p.bank).base + p.offset⟩

/-- What operands refer to. -/
structure Context where
  symbols : Symbol.Table
  labels : List (String × Address)
  /-- Arrays with the address of their first element and their length. -/
  arrays : List (String × Address × Nat)

/-- What the operands of a laid-out program refer to. -/
def Context.of (o : Options) (symbols : Symbol.Table) (p : Plan) : Context where
  symbols := symbols
  labels := p.labels.map fun (name, place) => (name, place.address o)
  arrays := p.arrays.map fun (name, place, length) => (name, place.address o, length)

namespace Context

/-- The number of the variable that another one is counted from. -/
def baseSlot (c : Context) : VariableBase → Except GenerateError UInt8
  | .slot number => .ok number
  | .named name =>
    match c.symbols.slot? name with
    | some number => .ok number
    | none => .error (.undefinedVariable name)

/-- The number of a variable. -/
def slot (c : Context) (v : Variable) : Except GenerateError UInt8 := do
  let number := (← c.baseSlot v.base).toNat + v.displacement.toNat
  if 255 < number then .error (.variableRange number) else .ok number.toUInt8

/-- The address of an element of an array. -/
def element (c : Context) (e : Element) : Except GenerateError Address :=
  match c.arrays.lookup e.array with
  | none => .error (.undefinedArray e.array)
  | some (first, length) =>
    match e.index.eval c.symbols.value? with
    | .error error => .error (.constant error)
    | .ok index =>
      if 0 ≤ index.toInt ∧ index.toInt.toNat < length then
        .ok { first with address := first.address + index.toInt.toNat }
      else .error (.indexOutOfBounds e.array index.toInt length)

/-- The value of a constant that fits the width. -/
def constant (c : Context) (width : Constant.Width) (e : Constant.Expr) :
    Except GenerateError Nat :=
  match e.evalAs width c.symbols.value? with
  | .ok value => .ok value.toNat
  | .error error => .error (.constant error)

/-- The bytes of an operand. -/
def operand (c : Context) (opcode : Opcode) (shape : OperandShape) (x : Operand) :
    Except GenerateError (List UInt8) :=
  match shape, x with
  | .byte, .literal b | .slot, .literal b => .ok [b]
  | .byte, .variable v | .slot, .variable v => do return [← c.slot v]
  | .byte, .constant e _ => do return [(← c.constant .byte e).toUInt8]
  | .word, .word w => .ok (wordBytes w.toNat)
  | .word, .literal b => .ok (wordBytes b.toNat)
  | .word, .constant e _ => do return wordBytes (← c.constant .word e)
  | .address, .label name =>
    match c.labels.lookup name with
    | some a => .ok a.bytes
    | none => .error (.undefinedLabel name)
  | .address, .element e => do return (← c.element e).bytes
  | _, x => .error (.badOperand opcode.mnemonic x.render)

/-- The bytes of operands, each in its form. -/
def operands (c : Context) (opcode : Opcode) :
    List OperandShape → List Operand → Except GenerateError (List UInt8)
  | shape :: shapes, x :: xs => do
    let first ← c.operand opcode shape x
    return first ++ (← operands c opcode shapes xs)
  | _, _ => .ok []

/-- The bytes of a piece of bank number `bank`. -/
def encode (c : Context) (o : Options) (bank : Nat) : Piece → Except GenerateError (List UInt8)
  | .item (.label _) => .ok []
  | .item (.text bytes) => .ok (Opcode.TEXT.code :: bytes ++ [0x00])
  | .item (.array _ bytes) => .ok (Opcode.DATA.code :: bytes.length.toUInt8 :: bytes)
  | .item (.code opcode xs) =>
    if opcode.operands.length ≠ xs.length then
      .error (.operandCount opcode.mnemonic opcode.operands.length xs.length)
    else do return opcode.code :: (← c.operands opcode opcode.operands xs)
  | .bridge => .ok (Opcode.GOTO.code :: (Place.address o ⟨bank + 1, 0⟩).bytes)

/-- Every piece of a bank with its bytes. -/
def encodeBank (c : Context) (o : Options) (bank : Nat) :
    List Piece → Except GenerateError (List (Piece × List UInt8))
  | [] => .ok []
  | p :: ps => do
    let bytes ← c.encode o bank p
    return (p, bytes) :: (← encodeBank c o bank ps)

/-- Every piece of the banks from number `bank` on with its bytes. -/
def encodeBanks (c : Context) (o : Options) (bank : Nat) :
    List (List Piece) → Except GenerateError (List (List (Piece × List UInt8)))
  | [] => .ok []
  | b :: bs => do
    let first ← c.encodeBank o bank b
    return first :: (← encodeBanks c o (bank + 1) bs)

end Context

/-! ## Listings -/

/-- The opcode a piece begins with. -/
def Piece.opcode? : Piece → Option Opcode
  | .item (.label _) => none
  | .item (.text _) => some .TEXT
  | .item (.array ..) => some .DATA
  | .item (.code opcode _) => some opcode
  | .bridge => some .GOTO

/-- A piece in words. -/
def Piece.describe (o : Options) (bank : Nat) : Piece → String
  | .item (.label name) => name ++ ":"
  | .item (.text bytes) => Instruction.renderText bytes
  | .item (.array name bytes) => Instruction.renderArray name bytes
  | .item (.code opcode xs) => Instruction.renderCode opcode xs
  | .bridge =>
    "GOTO\t" ++ toString (bank + 1) ++ ":" ++ Text.hexUpper 4 (o.window (bank + 1)).base

/-- A line for each piece of a bank, the first of which lies at `offset`. -/
def listBank (o : Options) (bank : Nat) : Nat → List (Piece × List UInt8) → List String
  | _, [] => []
  | offset, (p, bytes) :: rest =>
    let line :=
      if p.isLabel then p.describe o bank
      else
        Text.padLeft 3 ' ' (toString bank) ++ ":" ++
          Text.hexUpper 4 ((o.window bank).base + offset) ++ "  " ++
          Text.padRight 24 (" ".intercalate (bytes.map fun b => Text.hexUpper 2 b.toNat)) ++ " " ++
          p.describe o bank
    line :: listBank o bank (offset + bytes.length) rest

/-- A line for each piece of the banks from number `bank` on. -/
def listBanks (o : Options) (bank : Nat) : List (List (Piece × List UInt8)) → List String
  | [] => []
  | b :: bs => listBank o bank 0 b ++ listBanks o (bank + 1) bs

/-! ## Images -/

/-- A bank and what it is filled with. -/
structure Bank where
  window : Window
  bytes : List UInt8

/-- Bytes at the end of a bank that are not filled. -/
def Bank.free (b : Bank) : Nat := b.window.capacity - b.bytes.length

/-- A program in memory. -/
structure Image where
  banks : List Bank
  /-- The addresses of the labels that the script names, by name. -/
  labels : List (String × Address)
  /-- The addresses of the first elements of the arrays, by name. -/
  arrays : List (String × Address)
  /-- The opcodes in the banks, in the order of their codes. -/
  used : List Opcode
  /-- One line for each piece. -/
  listing : List String

namespace Image

/-- The listing as text. -/
def listingText (i : Image) : String := String.join (i.listing.map (· ++ "\n"))

/-- The window and the bytes of the banks from number `bank` on. -/
def banksFrom (o : Options) (bank : Nat) : List (List (Piece × List UInt8)) → List Bank
  | [] => []
  | b :: bs => ⟨o.window bank, b.flatMap (·.2)⟩ :: banksFrom o (bank + 1) bs

/-- By name. -/
def byName {α : Type} (xs : List (String × α)) : List (String × α) :=
  xs.mergeSort fun a b => a.1 ≤ b.1

/-- The image of encoded banks. -/
def ofEncoded (c : Context) (o : Options) (encoded : List (List (Piece × List UInt8))) : Image :=
  let opcodes := encoded.flatMap fun b => b.filterMap (·.1.opcode?)
  { banks := banksFrom o 0 encoded
    labels := byName (c.labels.filter fun l => !Symbol.isReserved l.1)
    arrays := byName (c.arrays.map fun (name, first, _) => (name, first))
    used := Opcode.all.filter (opcodes.contains ·)
    listing := listBanks o 0 encoded }

end Image

/-- What is wrong with the windows. -/
def Options.check (o : Options) : Except GenerateError Unit :=
  if o.windows.isEmpty then .error .noWindows
  else match o.windows.find? (!·.isValid) with
    | some w => .error (.invalidWindow w)
    | none => .ok ()

/-- What is noted about the banks that were begun. -/
def switchNotes (banks : Nat) : Log :=
  (List.range' 1 (banks - 1)).map fun n =>
    ⟨.debug, .memory, "layout: switching to bank " ++ toString n⟩

/-- What is noted once a program is in memory. -/
def Image.notes (i : Image) : Log :=
  [⟨.info, .memory, "generated " ++ toString i.banks.length ++ " banks, " ++
    toString (i.banks.foldr (·.bytes.length + ·) 0) ++ " bytes of bytecode"⟩]

/-- Places a program in memory, with what is noted on the way. -/
def generate (o : Options) (symbols : Symbol.Table) (code : List Instruction) :
    Log × Except GenerateError Image :=
  match o.check with
  | .error e => ([], .error e)
  | .ok () =>
    match Plan.of o code with
    | .error failure => (switchNotes failure.banks, .error failure.cause)
    | .ok plan =>
      let laidOut := switchNotes plan.count ++
        [⟨.debug, .memory, "layout: " ++ toString plan.count ++ " banks"⟩]
      let context := Context.of o symbols plan
      match context.encodeBanks o 0 plan.banks with
      | .error e => (laidOut, .error e)
      | .ok encoded =>
        let image := Image.ofEncoded context o encoded
        (laidOut ++ image.notes, .ok image)

end Gamebook.Memory
