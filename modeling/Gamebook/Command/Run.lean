import Gamebook.Command.Arguments
import Gamebook.Command.Number
import Gamebook.Command.Tree
import Gamebook.Compilation
import Gamebook.Memory.Content
import Gamebook.Text.Utf8

/-!
# The command

The command compiles a script, places pictures and music in the memory that is left, and writes a
file for every bank. `Settings.build` does all of it but the writing, given what the files hold that
it reads; `run` is the whole command on a tree of files.
-/

namespace Gamebook.Command

/-- Why the command fails, in two lines of which the second may be missing. -/
structure Failure where
  context : String
  cause : Option String := none
deriving DecidableEq

/-- What is said about a failure. -/
def Failure.text (f : Failure) : String :=
  "Error: " ++ f.context ++ "\n" ++
    match f.cause with
    | none => ""
    | some cause => "\nCaused by:\n    " ++ cause ++ "\n"

/-- The files that the command leaves, and what it says at last. -/
structure Delivery where
  folder : String
  /-- The bytes of the banks, in order. -/
  banks : List (List UInt8)
  summary : String

/-- What the command says, and what it comes to. -/
structure Build where
  stdout : String := ""
  stderr : String := ""
  result : Except Failure Delivery

/-- The contents of files, or why there are none. -/
abbrev Reader := String → Except FileError (List UInt8)

/-! ## Numbers -/

/-- Reads a number. -/
def number (text : String) : Except Failure Nat :=
  match readNumber text with
  | .ok n => .ok n
  | .error e => .error ⟨"Invalid number: " ++ text, some e.message⟩

/-- The number for a bank: beyond the last one, that one again. -/
def pick (values : List Nat) (index default : Nat) : Nat :=
  (values[index]?.orElse fun _ => values.getLast?).getD default

/-- The window of a bank, which has to lie within the addresses there are. -/
def checkWindow (base capacity : Nat) : Except Failure Memory.Window :=
  if 0xFFFF < base ∨ 0xFFFF < capacity then
    .error ⟨"Invalid bank window 0x" ++ Text.hexUpper 1 base ++ " with " ++ toString capacity ++
      " bytes", none⟩
  else .ok ⟨base, capacity⟩

/-- The windows that offsets and sizes describe, at least one. -/
def windowsOf (offsets sizes : List Nat) : Except Failure (List Memory.Window) :=
  (List.range (max (max offsets.length sizes.length) 1)).mapM fun index =>
    checkWindow (pick offsets index Memory.Window.standard.base)
      (pick sizes index Memory.Window.standard.capacity)

namespace Settings

/-- How the script is compiled, and how many banks there are. -/
def options (s : Settings) : Except Failure (CompileOptions × Nat) := do
  let maxErrors ← match s.maxErrors with
    | some text => number text
    | none => .ok Report.defaultLimit
  let offsets ← s.bankOffsets.mapM number
  let sizes ← s.bankSizes.mapM number
  let windows ← windowsOf offsets sizes
  let maxBanks ← number s.maxBanks
  return (⟨⟨s.strictColons, maxErrors⟩, ⟨windows, s.sliceTexts⟩⟩, maxBanks)

/-- The script. A folder can be opened, but not read. -/
def document (s : Settings) (read : Reader) : Except Failure Document :=
  match read s.input with
  | .error .isFolder =>
    .error ⟨"Failed to read: " ++ s.input, some FileError.isFolder.message⟩
  | .error e => .error ⟨"Failed to open: " ++ s.input, some e.message⟩
  | .ok bytes =>
    match Text.decode? bytes with
    | some text => .ok ⟨s.input, text, none⟩
    | none =>
      .error ⟨"Failed to read: " ++ s.input, some "stream did not contain valid UTF-8"⟩

/-! ## What is said -/

/-- The name under which a part of the compiler speaks. -/
def partName : Log.Part → String
  | .grammar => "cydc::parse"
  | .fusion => "cydc::optimize"
  | .memory => "cydc::codegen"
  | .placement => "cydc::alloc"
  | .command => "cydc"

/-- A note as it is told. If its text has several lines, the further ones are indented. -/
def noteText (note : Log.Note) : String :=
  "[" ++ Text.padRight 5 note.level.name ++ " " ++ partName note.part ++ "] " ++
    "\n    ".intercalate (note.text.splitOn "\n") ++ "\n"

/-- The notes that are to be told. -/
def tell (s : Settings) (log : Log) : String :=
  String.join ((log.upTo (s.verbosity + 1)).map noteText)

/-- A line of the table of labels. -/
def labelLine (name : String) (a : Memory.Address) : String :=
  "  " ++ Text.padRight 24 name ++ " " ++ toString a.bank ++ ":" ++ Text.hexUpper 4 a.address

/-- The table of labels. -/
def labelTable (image : Memory.Image) : String :=
  let labels := image.labels.map fun (name, a) => labelLine name a
  let arrays := image.arrays.map fun (name, a) => labelLine name a ++ " (array)"
  String.join (("Labels:" :: labels ++ arrays).map (· ++ "\n"))

/-- The tables that were asked for. -/
def tables (s : Settings) (image : Memory.Image) : String :=
  (if s.showLabels then labelTable image else "") ++
    (if s.showBytecode then image.listingText else "")

/-- The table of the memory in use. -/
def usageTable (banks : List Memory.BankUsage) : String :=
  let lines := banks.mapIdx fun index bank =>
    "Bank " ++ toString index ++ ": " ++ toString bank.used ++ " bytes used, " ++
      toString bank.free ++ " bytes free\n"
  "\nRAM usage:\n-----------------\n" ++ String.join lines ++ "-----------------\nTotal: " ++
    toString (banks.foldr (·.used + ·) 0) ++ " bytes\n"

/-! ## Pictures and music -/

/-- The blocks that files hold, numbered from `id` on. Numbers are bytes. -/
def readBlocks (read : Reader) (kind : Memory.BlockKind) (id : Nat) :
    List String → Except Failure (List (Memory.Block × List UInt8))
  | [] => .ok []
  | path :: rest =>
    match read path with
    | .error e => .error ⟨"Failed to read: " ++ path, some e.message⟩
    | .ok bytes =>
      if 255 < id then .error ⟨"Too many " ++ kind.name ++ " blocks", none⟩
      else do return (⟨kind, id, bytes.length⟩, bytes) :: (← readBlocks read kind (id + 1) rest)

/-- What is noted about a block that has its place. -/
def placedNote (p : Memory.Placement) : Log.Note :=
  ⟨.info, .command, p.block.kind.name ++ " " ++ toString p.block.id ++ " placed at bank " ++
    toString p.bank ++ ", " ++ Text.hexUpper 4 p.address.toNat⟩

/-- Fills the banks of a program with blocks. -/
def deliver (s : Settings) (budget : Memory.Budget) (code : List Memory.Bank)
    (blocks : List (Memory.Block × List UInt8)) : Log × Except Failure Delivery :=
  match Memory.allocate (code.map .ofBank) (blocks.map (·.1)) budget with
  | .error e => ([], .error ⟨"Failed to place external blocks", some e.message⟩)
  | .ok a =>
    (a.notes code.length ++ a.placements.map placedNote,
      .ok ⟨s.output, a.contents code (blocks.map (·.2)), usageTable a.banks⟩)

/-! ## The whole -/

/-- What remains once the script is compiled. -/
def finish (s : Settings) (read : Reader) (o : CompileOptions) (maxBanks : Nat)
    (image : Memory.Image) : Log × Except Failure Delivery :=
  match readBlocks read .image 0 s.images, readBlocks read .track 0 s.tracks with
  | .error f, _ | _, .error f => ([], .error f)
  | .ok images, .ok tracks =>
    s.deliver (o.memory.budget maxBanks) image.banks (images ++ tracks)

/-- What is said if the script is not compiled, with the failure this is; an overflow is none. -/
def explain (s : Settings) : CompileError → Option (String × Failure)
  | .report r => some (String.join (r.lines.map (· ++ "\n")),
      ⟨"Failed to compile " ++ s.input, none⟩)
  | .prose e => some ("", ⟨"Failed to compile " ++ s.input ++ ": " ++ e.message, none⟩)
  | .generate e => some ("", ⟨"Failed to compile " ++ s.input ++ ": " ++ e.message, none⟩)
  | .overflow => none

/-- Does everything but write files; an overflow ends it without an answer. -/
def build (s : Settings) (read : Reader) : Option Build :=
  let prepared := do return (← s.options, ← s.document read)
  match prepared with
  | .error f => some { result := .error f }
  | .ok ((o, maxBanks), document) =>
    match document.compile o Prose.verbatim with
    | (log, .error e) => do
      let (text, failure) ← s.explain e
      return { stderr := s.tell log ++ text, result := .error failure }
    | (log, .ok c) =>
      let (more, result) := s.finish read o maxBanks c.image
      some {
        stdout := s.tables c.image
        stderr := s.tell (log ++ more)
        result := result }

end Settings

/-- The name of the file of a bank. -/
def bankFile (index : Nat) : String := "BANK" ++ toString index ++ ".BIN"

/-- Writes the files of banks from number `index` on, up to the first that cannot be written. -/
def writeBanks (folder : String) (index : Nat) (t : Tree) :
    List (List UInt8) → Tree × Except Failure Unit
  | [] => (t, .ok ())
  | bytes :: rest =>
    let file := Path.within folder (bankFile index)
    match t.write file bytes with
    | .error e => (t, .error ⟨"Failed to write: " ++ file, some e.message⟩)
    | .ok t => writeBanks folder (index + 1) t rest

/-- Leaves all files in the tree. -/
def Delivery.write (d : Delivery) (t : Tree) : Tree × Except Failure Unit :=
  match t.makeFolder d.folder with
  | .error e => (t, .error ⟨"Failed to create directory: " ++ d.folder, some e.message⟩)
  | .ok t => writeBanks d.folder 0 t d.banks

/-- What is seen of a command that has ended. -/
structure Outcome where
  exit : Nat
  stdout : String := ""
  stderr : String := ""
  tree : Tree

/-- What the command says about its version. -/
def versionText : String := "CYD adventure compiler 1.0.0\n"

/-- What the command says about its arguments. -/
def usageText : String :=
  "Usage: cydc [OPTIONS] -o DIR INPUT\n\n" ++
  "  -S, --slice-texts            Allow texts to be split between memory banks\n" ++
  "      --strict-colons          Require a colon between statements on the same line\n" ++
  "      --max-errors N           Stop reporting after this many errors\n" ++
  "      --bank-offset ADDRESS    Base address of each code bank, repeat for every bank\n" ++
  "      --bank-size BYTES        Capacity of each code bank, repeat for every bank\n" ++
  "      --max-banks N            Memory banks available on the target\n" ++
  "      --image FILE             Image block to place in memory, numbered in order\n" ++
  "      --track FILE             Music track block to place in memory, numbered in order\n" ++
  "      --show-bytecode          Print the generated bytecode listing\n" ++
  "      --show-labels            Print the resolved label table\n" ++
  "  -v                           Increase log verbosity\n" ++
  "  -o DIR                       Output directory for bank files\n"

/-- The outcome of a build once its files are written. -/
def Build.outcome (b : Build) (t : Tree) : Outcome :=
  match b.result with
  | .error f => ⟨1, b.stdout, b.stderr ++ f.text, t⟩
  | .ok d =>
    match d.write t with
    | (t, .error f) => ⟨1, b.stdout, b.stderr ++ f.text, t⟩
    | (t, .ok ()) => ⟨0, b.stdout ++ d.summary, b.stderr, t⟩

/-- The command on a tree of files; an overflow leaves no outcome. -/
def run (arguments : List String) (t : Tree) : Option Outcome :=
  match Settings.ofArguments arguments with
  | .error .usage => some { exit := 2, tree := t }
  | .error .version => some { exit := 0, stdout := versionText, tree := t }
  | .error .help => some { exit := 0, stdout := usageText, tree := t }
  | .ok s => do return (← s.build t.read).outcome t

end Gamebook.Command
